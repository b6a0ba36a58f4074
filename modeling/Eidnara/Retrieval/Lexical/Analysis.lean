import Eidnara.Lib.Checked

/-!
# Atoms and their parts

`lexical/analysis.rs`: a text is cut into atoms and each atom into parts, at underscores and at
changes of case or digit.  The boundary rules read the classes of base characters only; a
combining mark stays with the base before it.  Rust's character tables are a parameter.
-/

namespace Eidnara.Retrieval.Lexical

open Lib List

abbrev Text : Type := List Char

/-! ## Characters -/

/-- The code points of the Unicode property `White_Space`. -/
def isWhitespace (c : Char) : Bool :=
  let n := c.toNat
  (9 ≤ n && n ≤ 13) || n = 0x20 || n = 0x85 || n = 0xa0 || n = 0x1680 ||
    (0x2000 ≤ n && n ≤ 0x200a) || n = 0x2028 || n = 0x2029 || n = 0x202f || n = 0x205f ||
    n = 0x3000

structure CharTables where
  isAlphanumeric : Char → Bool
  isNumeric : Char → Bool
  isUppercase : Char → Bool
  isLowercase : Char → Bool
  alphanumeric_not_whitespace : ∀ c, isAlphanumeric c → isWhitespace c = false

/-- `COMBINING_MARKS.contains`. -/
def isMark (c : Char) : Bool := 0x300 ≤ c.toNat && c.toNat ≤ 0x36f

def isPrivateUse (c : Char) : Bool :=
  (0xe000 ≤ c.toNat && c.toNat ≤ 0xf8ff) || (0xf0000 ≤ c.toNat && c.toNat ≤ 0xffffd) ||
    (0x100000 ≤ c.toNat && c.toNat ≤ 0x10fffd)

inductive Class
  | separator | upper | lower | digit | uncased
deriving DecidableEq, Repr

variable (t : CharTables)

def startsAtom (c : Char) : Bool := t.isAlphanumeric c || c = '_' || isPrivateUse c

def continuesAtom (c : Char) : Bool := startsAtom t c || isMark c

def classOf (c : Char) : Class :=
  if c = '_' then .separator
  else if t.isNumeric c then .digit
  else if t.isUppercase c then .upper
  else if t.isLowercase c then .lower
  else .uncased

theorem not_whitespace_of_continuesAtom {c : Char} (hc : continuesAtom t c = true) :
    isWhitespace c = false := by
  simp only [continuesAtom, startsAtom, Bool.or_eq_true, decide_eq_true_eq] at hc
  rcases hc with ((hc | rfl) | hc) | hc
  · exact t.alphanumeric_not_whitespace c hc
  · decide
  all_goals
    simp only [isPrivateUse, isMark, Bool.or_eq_true, Bool.and_eq_true, decide_eq_true_eq] at hc
    simp only [isWhitespace, Bool.or_eq_false_iff, Bool.and_eq_false_iff, decide_eq_false_iff_not]
    omega

theorem classOf_eq_separator {c : Char} : classOf t c = .separator ↔ c = '_' := by
  simp only [classOf]
  split_ifs <;> simp_all

/-! ## Atoms -/

/-- The pieces of `str::split`, the empty ones among them. -/
def splitRuns : Text → List Text
  | [] => [[]]
  | c :: text =>
    if continuesAtom t c then
      match splitRuns text with
      | [] => [[c]]
      | run :: runs => (c :: run) :: runs
    else [] :: splitRuns text

def atoms (text : Text) : List Text :=
  ((splitRuns t text).map (List.dropWhile isMark)).filter (fun run => !run.isEmpty)

theorem continues_of_mem_splitRuns {text run : Text} (hrun : run ∈ splitRuns t text) :
    ∀ c ∈ run, continuesAtom t c = true := by
  induction text generalizing run with
  | nil => simp_all [splitRuns]
  | cons d text ih =>
    simp only [splitRuns] at hrun
    split at hrun
    · split at hrun
      · simp_all
      · next runs heq =>
        rcases mem_cons.mp hrun with rfl | hrun
        · intro c hc
          rcases mem_cons.mp hc with rfl | hc
          · assumption
          · exact ih (heq ▸ mem_cons_self) c hc
        · exact ih (heq ▸ mem_cons_of_mem _ hrun)
    · rcases mem_cons.mp hrun with rfl | hrun
      · simp
      · exact ih hrun

theorem mem_atoms {text atom : Text} (hatom : atom ∈ atoms t text) :
    (∀ c ∈ atom, isWhitespace c = false) ∧ ∃ c rest, atom = c :: rest ∧ isMark c = false := by
  simp only [atoms, mem_filter, mem_map] at hatom
  obtain ⟨⟨run, hrun, rfl⟩, hne⟩ := hatom
  refine ⟨fun c hc => not_whitespace_of_continuesAtom t
    (continues_of_mem_splitRuns t hrun c (dropWhile_sublist _ |>.mem hc)), ?_⟩
  cases hdrop : run.dropWhile isMark with
  | nil => simp [hdrop] at hne
  | cons c rest =>
    have hhead := head?_dropWhile_not isMark run
    rw [hdrop] at hhead
    exact ⟨c, rest, rfl, by simpa using hhead⟩

/-! ## Parts -/

def Class.isLetter : Class → Bool
  | .upper | .lower | .uncased => true
  | _ => false

/-- `rest` holds the classes of the base characters after the current one. -/
def splits (previous current : Class) (rest : List Class) : Bool :=
  if previous = .digit ∧ current.isLetter then true
  else if previous.isLetter ∧ current = .digit then true
  else if previous = .lower ∧ current = .upper then true
  else if previous = .upper ∧ current = .upper then
    rest[0]? = some .lower ∧ rest[1]? = some .lower
  else false

/-- The first loop: the classes of the bases, and each character with the index of its base. -/
def collect : Text → List Class → List (Char × Nat × Bool) →
    List Class × List (Char × Nat × Bool)
  | [], bases, chars => (bases, chars)
  | c :: text, bases, chars =>
    let mark := isMark c && !bases.isEmpty
    let bases := if mark then bases else bases ++ [classOf t c]
    collect text bases (chars ++ [(c, bases.length - 1, mark)])

/-- `if !current.is_empty() { parts.push(current) }`. -/
def flush (parts : List Text) (current : Text) : List Text :=
  if current.isEmpty then parts else parts ++ [current]

/-- The second loop.  Every index is below the number of bases (`collect_eq`), so the default of
`getD` is never read. -/
def cut (bases : List Class) :
    List (Char × Nat × Bool) → List Text → Text → Option Class → List Text
  | [], parts, current, _ => flush parts current
  | (c, base, mark) :: chars, parts, current, previous =>
    let cls := bases.getD base .uncased
    if cls = .separator then cut bases chars (flush parts current) [] none
    else if mark then cut bases chars parts (current ++ [c]) previous
    else if previous.any (splits · cls (bases.drop (base + 1))) then
      cut bases chars (parts ++ [current]) [c] (some cls)
    else cut bases chars parts (current ++ [c]) (some cls)

def parts (atom : Text) : List Text :=
  let (bases, chars) := collect t atom [] []
  cut bases chars [] [] none

/-! ## One pass over the characters -/

/-- The classes of the bases of a text that follows a base. -/
def classes (text : Text) : List Class := (text.filter (!isMark ·)).map (classOf t)

/-- What `collect` records of a text before which `n` bases stand. -/
def indexed : Nat → Text → List (Char × Nat × Bool)
  | _, [] => []
  | n, c :: text =>
    if isMark c then (c, n - 1, true) :: indexed n text else (c, n, false) :: indexed (n + 1) text

theorem collect_eq (text : Text) (bases : List Class) (chars : List (Char × Nat × Bool))
    (hbases : bases ≠ []) :
    collect t text bases chars = (bases ++ classes t text, chars ++ indexed bases.length text) := by
  induction text generalizing bases chars with
  | nil => simp [collect, classes, indexed]
  | cons c text ih =>
    by_cases hc : isMark c = true
    · simp [collect, hc, hbases, ih bases, classes, indexed]
    · simp [collect, hc, ih (bases ++ [classOf t c]), classes, indexed]

/-- The second loop with the class of the last base in place of the indices. -/
def scan : Class → Text → List Text → Text → Option Class → List Text
  | _, [], parts, current, _ => flush parts current
  | attached, c :: text, parts, current, previous =>
    if isMark c then
      if attached = .separator then scan attached text (flush parts current) [] none
      else scan attached text parts (current ++ [c]) previous
    else if classOf t c = .separator then scan .separator text (flush parts current) [] none
    else if previous.any (splits · (classOf t c) (classes t text)) then
      scan (classOf t c) text (parts ++ [current]) [c] (some (classOf t c))
    else scan (classOf t c) text parts (current ++ [c]) (some (classOf t c))

theorem cut_indexed (before : List Class) (attached : Class) (text : Text) (parts : List Text)
    (current : Text) (previous : Option Class) :
    cut (before ++ attached :: classes t text) (indexed (before.length + 1) text) parts current
      previous = scan t attached text parts current previous := by
  induction text generalizing before attached parts current previous with
  | nil => rfl
  | cons c text ih =>
    by_cases hc : isMark c = true
    · have hsame : classes t (c :: text) = classes t text := by simp [classes, hc]
      simp [indexed, scan, cut, hc, hsame, ih]
    · have hmore : classes t (c :: text) = classOf t c :: classes t text := by simp [classes, hc]
      have ih := ih (before ++ [attached]) (classOf t c)
      have hget : (before ++ attached :: classOf t c :: classes t text).getD (before.length + 1)
          .uncased = classOf t c := by simp [getD_eq_getElem?_getD]
      have hdrop : (before ++ attached :: classOf t c :: classes t text).drop
          (before.length + 1 + 1) = classes t text := by
        rw [drop_append, drop_eq_nil_of_le (by omega)]
        simp [show before.length + 1 + 1 - before.length = 2 by omega]
      simp only [indexed, scan, cut, hc, hmore, hget, hdrop, if_false, Bool.false_eq_true]
      split_ifs <;> simp_all

/-- The first character counts as a base even when it is a mark. -/
theorem parts_cons (c : Char) (text : Text) :
    parts t (c :: text) = scan t (classOf t c) text []
      (if classOf t c = .separator then [] else [c])
      (if classOf t c = .separator then none else some (classOf t c)) := by
  have hcollect : collect t (c :: text) [] [] =
      (classOf t c :: classes t text, (c, 0, false) :: indexed 1 text) := by
    simp [collect, collect_eq]
  have hcut := cut_indexed t [] (classOf t c) text []
  rw [parts, hcollect]
  by_cases hc : classOf t c = .separator
  · simpa [cut, hc, flush] using hcut [] none
  · simpa [cut, hc] using hcut [c] (some (classOf t c))

/-! ## Nothing is lost -/

/-- The text without its underscores and the marks after them; `dropping` says that the marks at
its head follow an underscore. -/
def stripSeparators : Bool → Text → Text
  | _, [] => []
  | dropping, c :: text =>
    if isMark c then
      if dropping then stripSeparators true text else c :: stripSeparators false text
    else if c = '_' then stripSeparators true text
    else c :: stripSeparators false text

theorem flatten_flush (parts : List Text) (current : Text) :
    (flush parts current).flatten = parts.flatten ++ current := by
  by_cases hcurrent : current = [] <;> simp [flush, hcurrent]

theorem flatten_scan (attached : Class) (text : Text) (parts : List Text) (current : Text)
    (previous : Option Class) :
    (scan t attached text parts current previous).flatten =
      parts.flatten ++ current ++ stripSeparators (attached = .separator) text := by
  induction text generalizing attached parts current previous with
  | nil => simp [scan, flatten_flush, stripSeparators]
  | cons c text ih =>
    simp only [scan, stripSeparators, ← classOf_eq_separator t (c := c)]
    split_ifs <;> simp_all [flatten_flush]

def Sound (part : Text) : Prop := part ≠ [] ∧ '_' ∉ part

theorem sound_flush {parts : List Text} {current : Text} (hparts : ∀ part ∈ parts, Sound part)
    (hcurrent : '_' ∉ current) : ∀ part ∈ flush parts current, Sound part := by
  unfold flush
  split_ifs with hempty
  · exact hparts
  · exact forall_mem_append.mpr
      ⟨hparts, forall_mem_singleton.mpr ⟨by simpa using hempty, hcurrent⟩⟩

/-- A previous class stands only while a part is open. -/
theorem sound_scan (attached : Class) (text : Text) {parts : List Text} {current : Text}
    {previous : Option Class} (hparts : ∀ part ∈ parts, Sound part) (hcurrent : '_' ∉ current)
    (hopen : previous.isSome → current ≠ []) :
    ∀ part ∈ scan t attached text parts current previous, Sound part := by
  induction text generalizing attached parts current previous with
  | nil => exact sound_flush hparts hcurrent
  | cons c text ih =>
    have hpush (hne : c ≠ '_') : '_' ∉ current ++ [c] := by
      simpa [hcurrent] using Ne.symm hne
    simp only [scan]
    split_ifs with hmark hattached hsep hsplit
    · exact ih _ (sound_flush hparts hcurrent) (by simp) (by simp)
    · have hne : c ≠ '_' := by rintro rfl; exact absurd hmark (by decide)
      exact ih _ hparts (hpush hne) (by simp)
    · exact ih _ (sound_flush hparts hcurrent) (by simp) (by simp)
    · have hne : c ≠ '_' := mt (classOf_eq_separator t).mpr hsep
      have hsome : previous.isSome := by cases previous <;> simp_all
      have hlast : ∀ part ∈ parts ++ [current], Sound part := by
        simpa [or_imp, forall_and] using ⟨hparts, hopen hsome, hcurrent⟩
      exact ih _ hlast (by simpa using Ne.symm hne) (by simp)
    · exact ih _ hparts (hpush (mt (classOf_eq_separator t).mpr hsep)) (by simp)

theorem parts_lossless (atom : Text) :
    (∀ part ∈ parts t atom, Sound part) ∧ (parts t atom).flatten = stripSeparators false atom := by
  cases atom with
  | nil => simp [parts, collect, cut, flush, stripSeparators]
  | cons c text =>
    rw [parts_cons, flatten_scan]
    by_cases hc : c = '_'
    · subst hc
      refine ⟨sound_scan t _ _ (by simp) (by simp [classOf]) (by simp [classOf]), ?_⟩
      simp [classOf, stripSeparators, show isMark '_' = false by decide]
    · have hsep : classOf t c ≠ .separator := mt (classOf_eq_separator t).mp hc
      refine ⟨sound_scan t _ _ (by simp) (by simpa [hsep] using Ne.symm hc) (by simp [hsep]), ?_⟩
      simp [hsep, hc, stripSeparators]

/-! ## Marks are not seen -/

/-- The bases of a text: its first character and those after it that are no marks. -/
def baseChars : Text → Text
  | [] => []
  | c :: text => c :: text.filter (!isMark ·)

theorem baseChars_append {current : Text} (hcurrent : current ≠ []) (text : Text) :
    baseChars (current ++ text) = baseChars current ++ text.filter (!isMark ·) := by
  obtain ⟨c, rest, rfl⟩ := exists_cons_of_ne_nil hcurrent
  simp [baseChars]

theorem map_flush (parts : List Text) (current : Text) :
    (flush parts current).map baseChars = flush (parts.map baseChars) (baseChars current) := by
  cases current <;> simp [flush, baseChars]

theorem classes_filter (text : Text) : classes t (text.filter (!isMark ·)) = classes t text := by
  simp [classes]

/-- The scan of the bases is the scan with the marks taken out of its parts. -/
theorem map_scan (attached : Class) (text : Text) (parts : List Text) (current : Text)
    (previous : Option Class) (hopen : attached ≠ .separator → current ≠ [])
    (hclosed : attached = .separator → current = [] ∧ previous = none) :
    (scan t attached text parts current previous).map baseChars =
      scan t attached (text.filter (!isMark ·)) (parts.map baseChars) (baseChars current)
        previous := by
  induction text generalizing attached parts current previous with
  | nil => exact map_flush parts current
  | cons c text ih =>
    by_cases hmark : isMark c = true
    · by_cases hattached : attached = .separator
      · obtain ⟨rfl, rfl⟩ := hclosed hattached
        simpa [scan, hmark, hattached, flush] using ih attached parts [] none hopen hclosed
      · have hpush := baseChars_append (hopen hattached) [c]
        have ih := ih attached parts (current ++ [c]) previous (by simp) (by simp_all)
        simpa [scan, hmark, hattached, hpush] using ih
    · have hkeep : baseChars (current ++ [c]) = baseChars current ++ [c] := by
        by_cases hcurrent : current = []
        · simp [hcurrent, baseChars]
        · simp [baseChars_append hcurrent, hmark]
      simp only [scan, hmark, filter_cons, classes_filter, Bool.not_false, if_true, if_false,
        Bool.false_eq_true]
      split_ifs with hsep hsplit
      · rw [ih _ _ _ _ (by simp) (by simp), map_flush]
        rfl
      · rw [ih _ _ _ _ (by simp) (by simp [hsep])]
        simp [baseChars]
      · rw [ih _ _ _ _ (by simp) (by simp [hsep]), hkeep]

theorem map_parts (atom : Text) : (parts t atom).map baseChars = parts t (baseChars atom) := by
  cases atom with
  | nil => rfl
  | cons c text =>
    rw [baseChars, parts_cons, parts_cons, map_scan]
    · split_ifs <;> rfl
    · intro hsep
      simp [hsep]
    · intro hsep
      simp [hsep]

inductive MarksInserted : Text → Text → Prop
  | nil : MarksInserted [] []
  | keep {text marked} (c : Char) : MarksInserted text marked →
      MarksInserted (c :: text) (c :: marked)
  | insert {text marked} (m : Char) : isMark m = true → MarksInserted text marked →
      MarksInserted text (m :: marked)

theorem MarksInserted.filter_eq {text marked : Text} (h : MarksInserted text marked) :
    marked.filter (!isMark ·) = text.filter (!isMark ·) := by
  induction h with
  | nil => rfl
  | keep c _ ih => simp [filter_cons, ih]
  | insert m hm _ ih => simp [hm, ih]

/-! ## Segments -/

structure LexicalBounds where
  maxInputBytes : Nat
  maxAtoms : Nat
deriving DecidableEq, Repr

inductive LexicalRefusal
  | inputTooLong (bytes bound : Nat)
  | tooManyAtoms (bound : Nat)
deriving DecidableEq, Repr

structure Analysis where
  atoms : List Text := []
  parts : List Text := []
deriving DecidableEq, Repr

def pushAtom (bounds : LexicalBounds) (analysis : Analysis) (atom : Text) :
    Except LexicalRefusal Analysis :=
  if analysis.atoms.length = bounds.maxAtoms then .error (.tooManyAtoms bounds.maxAtoms)
  else
    let found := parts t atom
    .ok
      { atoms := analysis.atoms ++ [atom]
        parts := if found.length ≠ 1 ∨ found[0]? ≠ some atom then analysis.parts ++ found
          else analysis.parts }

def byteLength (text : Text) : Nat := (text.map Char.utf8Size).sum

def analyzeSegments (segments : List Text) (bounds : LexicalBounds) :
    Except LexicalRefusal Analysis :=
  let bytes := (segments.map byteLength).sum
  if bounds.maxInputBytes < bytes then .error (.inputTooLong bytes bounds.maxInputBytes)
  else
    segments.foldlM
      (fun analysis segment => (atoms t segment).foldlM (pushAtom t bounds) analysis) {}

def analyze (text : Text) (bounds : LexicalBounds) : Except LexicalRefusal Analysis :=
  analyzeSegments t [text] bounds

variable {bounds : LexicalBounds} {analysis : Analysis}

theorem foldlM_pushAtom_ok {found : List Text} {analysis result : Analysis}
    (h : found.foldlM (pushAtom t bounds) analysis = .ok result)
    (hfits : analysis.atoms.length ≤ bounds.maxAtoms) :
    result.atoms = analysis.atoms ++ found ∧ result.atoms.length ≤ bounds.maxAtoms := by
  induction found generalizing analysis with
  | nil =>
    obtain rfl : analysis = result := by simpa [pure, Except.pure] using h
    simpa using hfits
  | cons atom found ih =>
    rw [foldlM_cons, bind_eq_ok_iff] at h
    obtain ⟨next, hnext, h⟩ := h
    simp only [pushAtom] at hnext
    split at hnext
    · simp at hnext
    · obtain rfl := Except.ok.inj hnext
      have hroom : (analysis.atoms ++ [atom]).length ≤ bounds.maxAtoms := by
        simp only [length_append, length_singleton]
        omega
      simpa using ih h hroom

theorem foldlM_pushAtom_of_le {found : List Text}
    (hroom : analysis.atoms.length + found.length ≤ bounds.maxAtoms) :
    ∃ result, found.foldlM (pushAtom t bounds) analysis = .ok result := by
  induction found generalizing analysis with
  | nil => exact ⟨analysis, rfl⟩
  | cons atom found ih =>
    rw [length_cons] at hroom
    have hless : analysis.atoms.length ≠ bounds.maxAtoms := by omega
    simp only [foldlM_cons, pushAtom, if_neg hless]
    refine ih ?_
    simp only [length_append, length_singleton]
    omega

theorem analyzeSegments_eq (segments : List Text) (bounds : LexicalBounds) :
    analyzeSegments t segments bounds =
      if bounds.maxInputBytes < (segments.map byteLength).sum then
        .error (.inputTooLong (segments.map byteLength).sum bounds.maxInputBytes)
      else (segments.flatMap (atoms t)).foldlM (pushAtom t bounds) {} := by
  have hfold (analysis : Analysis) : segments.foldlM
      (fun analysis segment => (atoms t segment).foldlM (pushAtom t bounds) analysis)
      analysis = (segments.flatMap (atoms t)).foldlM (pushAtom t bounds) analysis := by
    induction segments generalizing analysis with
    | nil => rfl
    | cons segment segments ih => simp [flatMap_cons, foldlM_append, ih]
  rw [analyzeSegments, hfold]

theorem analyzeSegments_ok {segments : List Text}
    (h : analyzeSegments t segments bounds = .ok analysis) :
    (segments.map byteLength).sum ≤ bounds.maxInputBytes ∧
      analysis.atoms = segments.flatMap (atoms t) ∧
      analysis.atoms.length ≤ bounds.maxAtoms := by
  rw [analyzeSegments_eq] at h
  split at h
  · simp at h
  · obtain ⟨hatoms, hlength⟩ := foldlM_pushAtom_ok t h (Nat.zero_le _)
    exact ⟨by omega, by simpa using hatoms, hlength⟩

/-- A segment of an analyzed list is analyzed alone under the same bounds. -/
theorem analyze_of_mem {segments : List Text} (h : analyzeSegments t segments bounds = .ok analysis)
    {segment : Text} (hsegment : segment ∈ segments) :
    ∃ alone, analyze t segment bounds = .ok alone ∧ alone.atoms = atoms t segment := by
  obtain ⟨hbytes, hatoms, hlength⟩ := analyzeSegments_ok t h
  obtain ⟨before, after, rfl⟩ := append_of_mem hsegment
  have hfit : ¬ bounds.maxInputBytes < byteLength segment := by
    simp only [map_append, map_cons, sum_append, sum_cons] at hbytes
    omega
  have hroom : (atoms t segment).length ≤ bounds.maxAtoms := by
    simp only [hatoms, flatMap_append, flatMap_cons, length_append] at hlength
    omega
  obtain ⟨alone, halone⟩ :
      ∃ alone, (atoms t segment).foldlM (pushAtom t bounds) {} = .ok alone :=
    foldlM_pushAtom_of_le t (by simpa using hroom)
  have hok : analyze t segment bounds = .ok alone := by
    simpa [analyze, analyzeSegments_eq, hfit] using halone
  exact ⟨alone, hok, by simpa using (analyzeSegments_ok t hok).2.1⟩

/-- Cutting an atom loses only its underscores with their marks, and reads no mark: marks
inserted behind the first character change neither the number of parts nor their bases.  Segments
are analyzed one by one. -/
theorem identifier_splitting (t : CharTables) :
    (∀ atom, (∀ part ∈ parts t atom, Sound part) ∧
      (parts t atom).flatten = stripSeparators false atom) ∧
    (∀ c text marked, MarksInserted text marked →
      (parts t (c :: marked)).length = (parts t (c :: text)).length ∧
      (parts t (c :: marked)).map baseChars = (parts t (c :: text)).map baseChars) ∧
    ∀ segments bounds analysis, analyzeSegments t segments bounds = .ok analysis →
      (∃ alone : Text → Analysis,
        (∀ segment ∈ segments, analyze t segment bounds = .ok (alone segment)) ∧
        analysis.atoms = segments.flatMap fun segment => (alone segment).atoms) ∧
      ∀ atom ∈ analysis.atoms, (∀ c ∈ atom, isWhitespace c = false) ∧
        ∃ c text, atom = c :: text ∧ isMark c = false := by
  refine ⟨fun atom => ?_, fun c text marked hmarked => ?_, fun segments bounds analysis h => ?_⟩
  · exact parts_lossless t atom
  · have hsame : (parts t (c :: marked)).map baseChars = (parts t (c :: text)).map baseChars := by
      rw [map_parts, map_parts, baseChars, baseChars, hmarked.filter_eq]
    exact ⟨by simpa using congrArg List.length hsame, hsame⟩
  · obtain ⟨-, hatoms, -⟩ := analyzeSegments_ok t h
    have halone : ∀ segment, ∃ alone, segment ∈ segments →
        analyze t segment bounds = .ok alone ∧ alone.atoms = atoms t segment := fun segment => by
      by_cases hsegment : segment ∈ segments
      · obtain ⟨alone, halone⟩ := analyze_of_mem t h hsegment
        exact ⟨alone, fun _ => halone⟩
      · exact ⟨{}, fun hmem => absurd hmem hsegment⟩
    choose alone halone using halone
    refine ⟨⟨alone, fun segment hsegment => (halone segment hsegment).1, ?_⟩, ?_⟩
    · rw [hatoms]
      simp only [flatMap_def]
      rw [map_congr_left fun segment hsegment => (halone segment hsegment).2.symm]
    · intro atom hatom
      rw [hatoms, mem_flatMap] at hatom
      obtain ⟨segment, -, hatom⟩ := hatom
      exact mem_atoms t hatom

/-- The tables on the ASCII characters. -/
def asciiTables : CharTables where
  isAlphanumeric := Char.isAlphanum
  isNumeric := Char.isDigit
  isUppercase := Char.isUpper
  isLowercase := Char.isLower
  alphanumeric_not_whitespace c hc := by
    have hrange : 48 ≤ c.toNat ∧ c.toNat ≤ 122 := by
      delta Char.isAlphanum Char.isAlpha Char.isUpper Char.isLower Char.isDigit at hc
      simp only [Bool.or_eq_true, Bool.and_eq_true, decide_eq_true_eq, ge_iff_le,
        UInt32.le_iff_toNat_le, Char.reduceVal, UInt32.reduceToNat] at hc
      simp only [Char.toNat]
      omega
    simp only [isWhitespace, Bool.or_eq_false_iff, Bool.and_eq_false_iff, decide_eq_false_iff_not]
    omega

/-- A camel-case atom with a mark behind its first part, and two segments. -/
theorem identifier_splitting_camel :
    (parts asciiTables ['a', '\u0301', 'B', 'c']).length = 2 ∧
      ∃ analysis, analyzeSegments asciiTables [['a', 'B'], ['c', ' ', 'd']] ⟨8, 8⟩ = .ok analysis ∧
        analysis.atoms.length = 3 ∧
          ∀ atom ∈ analysis.atoms, ∀ c ∈ atom, isWhitespace c = false := by
  obtain ⟨-, hmarks, hsegments⟩ := identifier_splitting asciiTables
  have hok : analyzeSegments asciiTables [['a', 'B'], ['c', ' ', 'd']] ⟨8, 8⟩ =
      .ok ⟨[['a', 'B'], ['c'], ['d']], [['a'], ['B']]⟩ := by decide +kernel
  refine ⟨?_, _, hok, rfl, fun atom hatom => ((hsegments _ _ _ hok).2 atom hatom).1⟩
  rw [(hmarks 'a' ['B', 'c'] _ (.insert _ (by decide) (.keep _ (.keep _ .nil)))).1]
  decide +kernel

end Eidnara.Retrieval.Lexical
