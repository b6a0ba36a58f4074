import Eidnara.Lib.Checked
import Eidnara.Lib.Utf8

/-!
# Scanning in windows

`redaction.rs` of `context-core`: a text longer than the scanner takes is scanned in windows that
overlap.  A finding near an artificial edge is left to the next window, and one that an earlier
window claimed is dropped.  The scanner itself is a parameter.
-/

namespace Eidnara.ContextCore.Redaction

open Lib Utf8 List

/-! ## The scanner's limits -/

def maxInputBytes : Nat := 512 * 1024

def maxMatchBytes : Nat := 32 * 1024

def maxRuleRadius : Nat := 16 * 1024

def maxLocalContextBytes : Nat := 1024

def maxRedactableBytes : Nat := maxInputBytes

def windowOverlapBytes : Nat := 96 * 1024

def edgeMarginBytes : Nat := maxRuleRadius + maxLocalContextBytes

def minWindowAdvanceBytes : Nat := (maxRedactableBytes - windowOverlapBytes) / 2

/-- The overlap holds a longest match with its margins. -/
theorem match_le_overlap : maxMatchBytes + 2 * edgeMarginBytes ≤ windowOverlapBytes := by decide

theorem advance_le_window :
    minWindowAdvanceBytes + windowOverlapBytes + 7 ≤ maxRedactableBytes := by decide

theorem advance_pos : 0 < minWindowAdvanceBytes := by decide

inductive RedactionErrorKind where
  | inputLimit | candidateLimit | workLimit | matchLimit | invalidSpan
deriving DecidableEq, Repr

inductive LimitExhausted where
  | candidates | work | fullMatch
deriving DecidableEq, Repr

def LimitExhausted.kind : LimitExhausted → RedactionErrorKind
  | .candidates => .candidateLimit
  | .work => .workLimit
  | .fullMatch => .matchLimit

inductive ScanError where
  | inputLimitExceeded | invalidSpan
deriving DecidableEq, Repr

def ScanError.kind : ScanError → RedactionErrorKind
  | .inputLimitExceeded => .inputLimit
  | .invalidSpan => .invalidSpan

structure TextSpan where
  start : Nat
  stop : Nat
  ordered : start ≤ stop
deriving DecidableEq

structure Finding (Rule : Type) where
  rule : Rule
  fullSpan : TextSpan
deriving DecidableEq

structure ScanReport (Rule : Type) where
  findings : List (Finding Rule)
  limitsHit : Option LimitExhausted

abbrev Scanner (Rule : Type) : Type := List Char → Except ScanError (ScanReport Rule)

variable {Rule : Type}

/-- The finding as the text has it that the window at `offset` is cut from. -/
def Finding.shift (finding : Finding Rule) (offset : Nat) : Finding Rule where
  rule := finding.rule
  fullSpan := ⟨offset + finding.fullSpan.start, offset + finding.fullSpan.stop,
    Nat.add_le_add_left finding.fullSpan.ordered offset⟩

/-! ## One window -/

/-- `WindowScan::findings`: what the window keeps, and how far the text is claimed after it. -/
def findings (scan : Scanner Rule) (claimedTo : Nat) (window : List Char) (start : Nat)
    (isLast : Bool) : Except RedactionErrorKind (List (Finding Rule) × Nat) :=
  match scan window with
  | .error error => .error error.kind
  | .ok report =>
    match report.limitsHit with
    | some limit => .error limit.kind
    | none =>
      let keepFrom := if start = 0 then 0 else edgeMarginBytes
      let keepTo :=
        if isLast then (utf8 window).length else (utf8 window).length - edgeMarginBytes
      .ok (report.findings.filter fun finding =>
          keepFrom ≤ finding.fullSpan.start ∧ finding.fullSpan.stop ≤ keepTo ∧
            claimedTo - start < finding.fullSpan.stop,
        start + keepTo)

/-! ## The walk -/

def charFloor (input : List Char) (index : Nat) : Nat :=
  floorCharBoundary input (min index (utf8 input).length)

def rfindNewline : List Char → Option Nat
  | [] => none
  | c :: text =>
    match rfindNewline text with
    | some index => some ((utf8 [c]).length + index)
    | none => if c = '\n' then some 0 else none

/-- Where the window after `start..stop` starts.  `none` stands for a panic. -/
def nextStart (input : List Char) (start stop : Nat) : Option Nat := do
  let overlapStart ← checkedSub stop windowOverlapBytes
  let target := charFloor input overlapStart
  let floor := start + minWindowAdvanceBytes
  let searchFrom := min (charFloor input (floor - 1)) target
  let searched ← sliceChars input searchFrom target
  let lineStart := ((rfindNewline searched).map fun index => searchFrom + index + 1).filter
    fun lineStart => floor ≤ lineStart
  some (max (lineStart.getD target) (start + 1))

def scanWindowsFrom (input : List Char) : Nat → Nat → Option (List (Nat × Nat))
  | 0, _ => none
  | fuel + 1, start =>
    let stop := charFloor input (start + maxRedactableBytes)
    if stop < (utf8 input).length then do
      let next ← nextStart input start stop
      let windows ← scanWindowsFrom input fuel next
      some ((start, stop) :: windows)
    else some [(start, stop)]

/-- `scan_windows`.  Every start is past the one before it, so there are no more windows than
bytes, and one. -/
def scanWindows (input : List Char) : Option (List (Nat × Nat)) :=
  scanWindowsFrom input ((utf8 input).length + 1) 0

def window (input : List Char) (start stop : Nat) : Except RedactionErrorKind (List Char) :=
  match sliceChars input start stop with
  | some window => .ok window
  | none => .error .invalidSpan

def keptInWindows (scan : Scanner Rule) (input : List Char) :
    List (Nat × Nat) → Nat → Except RedactionErrorKind (List (List (Finding Rule)))
  | [], _ => .ok []
  | (start, stop) :: windows, claimedTo => do
    let text ← window input start stop
    let kept ← findings scan claimedTo text start (stop = (utf8 input).length)
    let later ← keptInWindows scan input windows kept.2
    .ok (kept.1.map (·.shift start) :: later)

/-- `detect_windowed`, which stops at the first finding. -/
def detectWindowed (scan : Scanner Rule) (input : List Char) :
    List (Nat × Nat) → Nat → Except RedactionErrorKind Bool
  | [], _ => .ok false
  | (start, stop) :: windows, claimedTo => do
    let text ← window input start stop
    let kept ← findings scan claimedTo text start (stop = (utf8 input).length)
    if kept.1.isEmpty then detectWindowed scan input windows kept.2 else .ok true

/-! ## Where the windows fall -/

theorem charFloor_le (input : List Char) (index : Nat) : charFloor input index ≤ index :=
  (floorCharBoundary_spec input _).2.1.trans (Nat.min_le_left _ _)

theorem charFloor_le_length (input : List Char) (index : Nat) :
    charFloor input index ≤ (utf8 input).length :=
  (floorCharBoundary_spec input _).2.1.trans (Nat.min_le_right _ _)

theorem isCharBoundary_charFloor (input : List Char) (index : Nat) :
    isCharBoundary input (charFloor input index) = true :=
  (floorCharBoundary_spec input _).1

variable {input : List Char}

theorem charFloor_greatest {index n : Nat} (hn : n ≤ index) (hlength : n ≤ (utf8 input).length)
    (hbound : isCharBoundary input n = true) :
    n ≤ charFloor input index :=
  (floorCharBoundary_spec input _).2.2 n (Nat.le_min.mpr ⟨hn, hlength⟩) hbound

theorem charFloor_mono (input : List Char) {i j : Nat} (h : i ≤ j) :
    charFloor input i ≤ charFloor input j :=
  charFloor_greatest ((charFloor_le input i).trans h) (charFloor_le_length input i)
    (isCharBoundary_charFloor input i)

theorem le_charFloor {index : Nat} (h : index ≤ (utf8 input).length) :
    index ≤ charFloor input index + 3 := by
  obtain ⟨n, hn, hclose, hbound⟩ := exists_isCharBoundary h
  have hle := charFloor_greatest hn (hn.trans h) hbound
  omega

theorem lt_length_of_charFloor {index : Nat} (h : charFloor input index < (utf8 input).length) :
    index < (utf8 input).length := by
  by_contra hlong
  have hle := charFloor_greatest (Nat.le_of_not_lt hlong) le_rfl (isCharBoundary_length input)
  omega

theorem rfindNewline_some {text : List Char} {index : Nat} (h : rfindNewline text = some index) :
    ∃ a b, text = a ++ '\n' :: b ∧ (utf8 a).length = index := by
  induction text generalizing index with
  | nil => cases h
  | cons c text ih =>
    rw [rfindNewline] at h
    split at h
    · rename_i later hlater
      obtain ⟨a, b, rfl, ha⟩ := ih hlater
      obtain rfl := Option.some.inj h
      exact ⟨c :: a, b, rfl, by rw [length_utf8_cons, ha]⟩
    · split_ifs at h with hc
      obtain rfl := Option.some.inj h
      exact ⟨[], text, by rw [hc]; rfl, rfl⟩

/-- The next window starts on a boundary, at least an advance later and an overlap before the end
of this one. -/
theorem nextStart_spec {start stop : Nat} (hstart : start ≤ (utf8 input).length)
    (hstop : stop = charFloor input (start + maxRedactableBytes))
    (hmore : stop < (utf8 input).length) :
    ∃ next, nextStart input start stop = some next ∧ isCharBoundary input next = true ∧
      start + minWindowAdvanceBytes ≤ next ∧ next + windowOverlapBytes ≤ stop := by
  have hwindow := advance_le_window
  have hpos := advance_pos
  have hlong : start + maxRedactableBytes < (utf8 input).length :=
    lt_length_of_charFloor (hstop ▸ hmore)
  have hfull : start + maxRedactableBytes ≤ stop + 3 := hstop ▸ le_charFloor hlong.le
  have hoverlap : windowOverlapBytes ≤ stop := by omega
  obtain ⟨target, htarget⟩ : ∃ target, target = charFloor input (stop - windowOverlapBytes) :=
    ⟨_, rfl⟩
  have htargetBound : isCharBoundary input target = true := htarget ▸ isCharBoundary_charFloor ..
  have htargetLe : target + windowOverlapBytes ≤ stop := by
    have hle := charFloor_le input (stop - windowOverlapBytes)
    omega
  have htargetGe : start + minWindowAdvanceBytes ≤ target := by
    have hge := @le_charFloor input (stop - windowOverlapBytes) (by omega)
    omega
  obtain ⟨searchFrom, hsearch⟩ : ∃ searchFrom, searchFrom =
      min (charFloor input (start + minWindowAdvanceBytes - 1)) target := ⟨_, rfl⟩
  have hsearchBound : isCharBoundary input searchFrom = true := by
    rcases Nat.le_total (charFloor input (start + minWindowAdvanceBytes - 1)) target with h | h
    · rw [hsearch, Nat.min_eq_left h]
      exact isCharBoundary_charFloor ..
    · rw [hsearch, Nat.min_eq_right h]
      exact htargetBound
  obtain ⟨a, b, c, rfl, ha, hb⟩ :=
    exists_cut hsearchBound htargetBound (hsearch ▸ Nat.min_le_right _ _)
  have hslice : sliceChars (a ++ b ++ c) searchFrom target = some b := by
    rw [← ha, ← hb]
    exact sliceChars_append a b c
  have hnext : nextStart (a ++ b ++ c) start stop = some (max
      ((((rfindNewline b).map fun index => searchFrom + index + 1).filter
        fun lineStart => start + minWindowAdvanceBytes ≤ lineStart).getD target) (start + 1)) := by
    unfold nextStart
    rw [checkedSub_of_le hoverlap]
    simp only [some_bind, ← htarget, ← hsearch, hslice]
  cases hline : ((rfindNewline b).map fun index => searchFrom + index + 1).filter
      fun lineStart => start + minWindowAdvanceBytes ≤ lineStart with
  | none =>
    rw [hline, Option.getD_none, Nat.max_eq_left (by omega)] at hnext
    exact ⟨target, hnext, htargetBound, htargetGe, htargetLe⟩
  | some lineStart =>
    obtain ⟨hfound, hfloor⟩ := Option.filter_eq_some_iff.mp hline
    have hfloor : start + minWindowAdvanceBytes ≤ lineStart := of_decide_eq_true hfloor
    obtain ⟨index, hindex, rfl⟩ := Option.map_eq_some_iff.mp hfound
    obtain ⟨before, after, rfl, hbefore⟩ := rfindNewline_some hindex
    have hnewline : (utf8 ['\n']).length = 1 := by decide
    have hlater : start + 1 ≤ searchFrom + index + 1 :=
      (Nat.add_le_add_left hpos start).trans hfloor
    rw [hline, Option.getD_some, Nat.max_eq_left hlater] at hnext
    refine ⟨_, hnext, ?_, hfloor, ?_⟩
    · refine isCharBoundary_iff.mpr ⟨a ++ (before ++ ['\n']), after ++ c, by simp, ?_⟩
      rw [utf8_append, utf8_append, length_append, length_append, hnewline]
      omega
    · rw [utf8_append, length_append, length_utf8_cons, hnewline] at hb
      have hend : searchFrom + index + 1 ≤ target := by
        rw [← ha, ← hb, ← hbefore, Nat.add_assoc]
        exact Nat.add_le_add_left (Nat.add_le_add_left (Nat.le_add_right 1 _) _) _
      exact (Nat.add_le_add_right hend _).trans htargetLe

/-- Windows from `start` to the end of the text, where those before reach up to `reached`. -/
inductive Covers (input : List Char) : Nat → Nat → List (Nat × Nat) → Prop where
  | last {reached start : Nat} (hstart : isCharBoundary input start = true)
      (hle : start ≤ (utf8 input).length) (hreached : reached ≤ (utf8 input).length)
      (hshort : (utf8 input).length ≤ start + maxRedactableBytes) :
      Covers input reached start [(start, (utf8 input).length)]
  | more {reached start stop next : Nat} {windows : List (Nat × Nat)}
      (hstart : isCharBoundary input start = true) (hstop : isCharBoundary input stop = true)
      (hreached : reached ≤ stop) (hshort : stop ≤ start + maxRedactableBytes)
      (hmore : stop < (utf8 input).length) (hnext : start < next)
      (hoverlap : next + windowOverlapBytes ≤ stop) (hrest : Covers input stop next windows) :
      Covers input reached start ((start, stop) :: windows)

variable {reached : Nat}

theorem scanWindowsFrom_covers {fuel start : Nat} (hfuel : (utf8 input).length < start + fuel)
    (hstart : isCharBoundary input start = true) (hle : start ≤ (utf8 input).length)
    (hreached : reached ≤ charFloor input (start + maxRedactableBytes)) :
    ∃ windows, scanWindowsFrom input fuel start = some windows ∧
      Covers input reached start windows := by
  induction fuel generalizing start reached with
  | zero => omega
  | succ fuel ih =>
    rw [scanWindowsFrom]
    have hstopLe := charFloor_le input (start + maxRedactableBytes)
    have hstopBound := isCharBoundary_charFloor input (start + maxRedactableBytes)
    split_ifs with hmore
    · obtain ⟨next, hnext, hbound, hadvance, hoverlap⟩ := nextStart_spec hle rfl hmore
      have hpos := advance_pos
      have hlater : start + maxRedactableBytes ≤ next + maxRedactableBytes := by omega
      obtain ⟨windows, hwindows, hcovers⟩ := ih (by omega) hbound (by omega)
        (charFloor_mono input hlater)
      refine ⟨_, ?_, .more hstart hstopBound hreached hstopLe hmore (by omega) hoverlap hcovers⟩
      rw [hnext, some_bind, hwindows, some_bind]
    · have hend : charFloor input (start + maxRedactableBytes) = (utf8 input).length :=
        Nat.le_antisymm (charFloor_le_length _ _) (Nat.le_of_not_lt hmore)
      refine ⟨_, rfl, ?_⟩
      rw [hend] at hreached hstopLe ⊢
      exact .last hstart hle hreached hstopLe

theorem scanWindows_covers (input : List Char) :
    ∃ windows, scanWindows input = some windows ∧ Covers input 0 0 windows :=
  scanWindowsFrom_covers (by omega) (isCharBoundary_zero input) (Nat.zero_le _) (Nat.zero_le _)

variable {windows : List (Nat × Nat)}

theorem Covers.fits {start : Nat} (h : Covers input reached start windows) :
    ∀ window ∈ windows, isCharBoundary input window.1 = true ∧
      isCharBoundary input window.2 = true ∧ window.1 ≤ window.2 ∧
      window.2 - window.1 ≤ maxRedactableBytes := by
  induction h with
  | last hstart hle hreached hshort =>
    intro window hwindow
    obtain rfl := mem_singleton.mp hwindow
    exact ⟨hstart, isCharBoundary_length input, hle, by simp only; omega⟩
  | more hstart hstop hreached hshort hmore hnext hoverlap hrest ih =>
    exact forall_mem_cons.mpr ⟨⟨hstart, hstop, by simp only; omega, by simp only; omega⟩, ih⟩

theorem Covers.getLast? {start : Nat} (h : Covers input reached start windows) :
    windows.getLast?.map Prod.snd = some (utf8 input).length := by
  induction h with
  | last hstart hle hreached hshort => rfl
  | more hstart hstop hreached hshort hmore hnext hoverlap hrest ih =>
    cases hrest with
    | last => rfl
    | more => rwa [getLast?_cons_cons]

/-! ## What the windows keep -/

/-- What the scanner finds in texts of any length.  Its matches are not empty, and short.  One
with its margins inside a slice, or with the text's own edge, is found there exactly if it is
found in the text. -/
structure Local (found : List Char → List (Finding Rule)) : Prop where
  nonempty : ∀ text, ∀ finding ∈ found text, finding.fullSpan.start < finding.fullSpan.stop
  short : ∀ text, ∀ finding ∈ found text,
    finding.fullSpan.stop - finding.fullSpan.start ≤ maxMatchBytes
  within : ∀ text, ∀ finding ∈ found text, finding.fullSpan.stop ≤ (utf8 text).length
  slice : ∀ (before text after : List Char) (finding : Finding Rule),
    finding.fullSpan.stop - finding.fullSpan.start ≤ maxMatchBytes →
    finding.fullSpan.stop ≤ (utf8 text).length →
    (before = [] ∨ edgeMarginBytes ≤ finding.fullSpan.start) →
    (after = [] ∨ finding.fullSpan.stop + edgeMarginBytes ≤ (utf8 text).length) →
    (finding ∈ found text ↔ finding.shift (utf8 before).length ∈ found (before ++ text ++ after))

/-- A scan of a text that is not too long reports what there is to find and hits no limit. -/
def Reports (scan : Scanner Rule) (found : List Char → List (Finding Rule)) : Prop :=
  ∀ text, (utf8 text).length ≤ maxRedactableBytes → scan text = .ok ⟨found text, none⟩

theorem Finding.exists_shift {finding : Finding Rule} {offset : Nat}
    (h : offset ≤ finding.fullSpan.start) : ∃ shifted, finding = Finding.shift shifted offset := by
  have hordered := finding.fullSpan.ordered
  refine ⟨⟨finding.rule, ⟨finding.fullSpan.start - offset, finding.fullSpan.stop - offset,
    by omega⟩⟩, ?_⟩
  cases finding with
  | mk rule span =>
    cases span
    simp only [Finding.shift, Finding.mk.injEq, TextSpan.mk.injEq, true_and] at h hordered ⊢
    omega

section

variable {scan : Scanner Rule} {found : List Char → List (Finding Rule)}

/-- A window keeps the findings of the text that end in what it claims, if what it starts with is
a match and two margins behind what is claimed. -/
theorem findings_window (hlocal : Local found) (hreports : Reports scan found)
    {before text after : List Char} {claimedTo start : Nat} {isLast : Bool}
    (hstart : start = (utf8 before).length)
    (hbehind : start = 0 ∨ start + edgeMarginBytes + maxMatchBytes ≤ claimedTo)
    (hlast : isLast = true → after = []) (hshort : (utf8 text).length ≤ maxRedactableBytes) :
    ∃ kept, findings scan claimedTo text start isLast = .ok (kept, start +
        if isLast then (utf8 text).length else (utf8 text).length - edgeMarginBytes) ∧
      ∀ finding, finding ∈ kept.map (Finding.shift · start) ↔
        finding ∈ found (before ++ text ++ after) ∧ claimedTo < finding.fullSpan.stop ∧
          finding.fullSpan.stop ≤ start +
            if isLast then (utf8 text).length else (utf8 text).length - edgeMarginBytes := by
  generalize hkeepTo : (if isLast then (utf8 text).length
    else (utf8 text).length - edgeMarginBytes) = keepTo
  have hkept : findings scan claimedTo text start isLast =
      .ok ((found text).filter fun finding =>
        (if start = 0 then 0 else edgeMarginBytes) ≤ finding.fullSpan.start ∧
          finding.fullSpan.stop ≤ keepTo ∧ claimedTo - start < finding.fullSpan.stop,
        start + keepTo) := by
    simp only [findings, hreports text hshort, hkeepTo]
  -- a finding that is kept has its margins in the window, or the text's own edge
  have hedges : ∀ finding : Finding Rule, finding.fullSpan.start < finding.fullSpan.stop →
      finding.fullSpan.stop ≤ keepTo → finding.fullSpan.stop ≤ (utf8 text).length ∧
        (after = [] ∨ finding.fullSpan.stop + edgeMarginBytes ≤ (utf8 text).length) := by
    intro finding hnonempty hstop
    cases isLast with
    | true =>
      simp only [if_true] at hkeepTo
      exact ⟨by omega, .inl (hlast rfl)⟩
    | false =>
      simp only [Bool.false_eq_true, if_false] at hkeepTo
      exact ⟨by omega, .inr (by omega)⟩
  refine ⟨_, hkept, fun finding => ?_⟩
  rw [mem_map]
  constructor
  · rintro ⟨relative, hrelative, rfl⟩
    rw [mem_filter, decide_eq_true_iff] at hrelative
    obtain ⟨hfound, hfrom, hto, hclaimed⟩ := hrelative
    obtain ⟨hwithin, hafter⟩ := hedges relative (hlocal.nonempty text relative hfound) hto
    have hbefore : before = [] ∨ edgeMarginBytes ≤ relative.fullSpan.start := by
      by_cases hzero : start = 0
      · exact .inl (length_utf8_eq_zero.mp (by omega))
      · rw [if_neg hzero] at hfrom
        exact .inr hfrom
    refine ⟨?_, ?_, ?_⟩
    · rw [hstart]
      exact (hlocal.slice before text after relative (hlocal.short text relative hfound) hwithin
        hbefore hafter).mp hfound
    · simp only [Finding.shift]
      omega
    · simp only [Finding.shift]
      omega
  · rintro ⟨hfound, hclaimed, hto⟩
    have hnonempty := hlocal.nonempty _ finding hfound
    have hmatch := hlocal.short _ finding hfound
    obtain ⟨relative, rfl⟩ := @Finding.exists_shift Rule finding start (by omega)
    simp only [Finding.shift] at hclaimed hto hnonempty hmatch
    obtain ⟨hwithin, hafter⟩ := hedges relative (by omega) (by omega)
    have hfrom : start = 0 ∨ edgeMarginBytes ≤ relative.fullSpan.start := by omega
    have hbefore : before = [] ∨ edgeMarginBytes ≤ relative.fullSpan.start :=
      hfrom.imp_left fun hzero => length_utf8_eq_zero.mp (by omega)
    refine ⟨relative, ?_, rfl⟩
    rw [mem_filter, decide_eq_true_iff]
    rw [hstart] at hfound
    refine ⟨(hlocal.slice before text after relative (by omega) hwithin hbefore hafter).mpr hfound,
      ?_, by omega, by omega⟩
    split_ifs with hzero
    · exact Nat.zero_le _
    · exact hfrom.resolve_left hzero

theorem window_eq {start stop : Nat} (hstart : isCharBoundary input start = true)
    (hstop : isCharBoundary input stop = true) (hle : start ≤ stop) :
    ∃ before text after, input = before ++ text ++ after ∧ start = (utf8 before).length ∧
      start + (utf8 text).length = stop ∧ window input start stop = .ok text ∧
      (stop = (utf8 input).length → after = []) := by
  obtain ⟨before, text, after, rfl, hbefore, htext⟩ := exists_cut hstart hstop hle
  refine ⟨before, text, after, rfl, hbefore.symm, hbefore ▸ htext, ?_, ?_⟩
  · rw [window, ← hbefore, ← htext, sliceChars_append]
  · intro hend
    rw [utf8_append, utf8_append, length_append, length_append] at hend
    exact length_utf8_eq_zero.mp (by omega)

theorem findings_in_window (hlocal : Local found) (hreports : Reports scan found)
    {start stop claimedTo : Nat} (hstart : isCharBoundary input start = true)
    (hstop : isCharBoundary input stop = true) (hle : start ≤ stop)
    (hshort : stop ≤ start + maxRedactableBytes)
    (hbehind : start = 0 ∨ start + edgeMarginBytes + maxMatchBytes ≤ claimedTo) :
    ∃ text kept claimed, window input start stop = .ok text ∧
      findings scan claimedTo text start (stop = (utf8 input).length) = .ok (kept, claimed) ∧
      (claimed = if stop = (utf8 input).length then stop
        else start + (stop - start - edgeMarginBytes)) ∧
      ∀ finding, finding ∈ kept.map (Finding.shift · start) ↔ finding ∈ found input ∧
        claimedTo < finding.fullSpan.stop ∧ finding.fullSpan.stop ≤ claimed := by
  obtain ⟨before, text, after, hinput, hbefore, htext, hwindow, hafter⟩ :=
    window_eq hstart hstop hle
  obtain ⟨kept, hfindings, hkept⟩ := @findings_window Rule scan found hlocal hreports before text
    after claimedTo start (stop = (utf8 input).length) hbefore hbehind
    (fun hlast => hafter (of_decide_eq_true hlast)) (by omega)
  refine ⟨text, kept, _, hwindow, hfindings, ?_, ?_⟩
  · by_cases hlast : stop = (utf8 input).length
    · simp only [hlast, decide_true, if_true]
      omega
    · simp only [hlast, decide_false, Bool.false_eq_true, if_false]
      omega
  · rw [hinput]
    rw [hinput] at hkept
    exact hkept

variable {windows : List (Nat × Nat)}

theorem keptInWindows_cons {input text : List Char} {start stop claimedTo claimed : Nat}
    {kept : List (Finding Rule)} {later : List (List (Finding Rule))}
    (hwindow : window input start stop = .ok text)
    (hfindings : findings scan claimedTo text start (stop = (utf8 input).length) =
      .ok (kept, claimed))
    (hlater : keptInWindows scan input windows claimed = .ok later) :
    keptInWindows scan input ((start, stop) :: windows) claimedTo =
      .ok (kept.map (Finding.shift · start) :: later) := by
  exact bind_eq_ok_iff.mpr ⟨text, hwindow, bind_eq_ok_iff.mpr ⟨(kept, claimed), hfindings,
    bind_eq_ok_iff.mpr ⟨later, hlater, rfl⟩⟩⟩

variable [DecidableEq Rule]

/-- Each finding past what is claimed is kept by exactly one of the windows. -/
theorem keptInWindows_counts (hlocal : Local found) (hreports : Reports scan found)
    {reached start claimedTo : Nat} (hcovers : Covers input reached start windows)
    (hclaimed : claimedTo ≤ reached - edgeMarginBytes)
    (hbehind : start = 0 ∨ start + edgeMarginBytes + maxMatchBytes ≤ claimedTo) :
    ∃ kept, keptInWindows scan input windows claimedTo = .ok kept ∧
      ∀ finding, kept.countP (fun findings => finding ∈ findings) =
        if finding ∈ found input ∧ claimedTo < finding.fullSpan.stop then 1 else 0 := by
  induction hcovers generalizing claimedTo with
  | @last reached start hstart hle hreached hshort =>
    obtain ⟨text, kept, claimed, hwindow, hfindings, hclaims, hkept⟩ :=
      findings_in_window hlocal hreports hstart (isCharBoundary_length input) hle hshort hbehind
    rw [if_pos rfl] at hclaims
    refine ⟨[kept.map (Finding.shift · start)], ?_, ?_⟩
    · exact keptInWindows_cons hwindow hfindings rfl
    · intro finding
      have hmem : finding ∈ kept.map (Finding.shift · start) ↔
          finding ∈ found input ∧ claimedTo < finding.fullSpan.stop := by
        rw [hkept, hclaims]
        exact ⟨fun h => ⟨h.1, h.2.1⟩, fun h => ⟨h.1, h.2, hlocal.within input finding h.1⟩⟩
      rw [countP_singleton]
      simp only [hmem, decide_eq_true_eq]
  | @more reached start stop next windows hstart hstop hreached hshort hmore hnext hoverlap hrest
      ih =>
      have hmatch := match_le_overlap
      obtain ⟨text, kept, claimed, hwindow, hfindings, hclaims, hkept⟩ :=
        findings_in_window hlocal hreports hstart hstop (by omega) hshort hbehind
      rw [if_neg (Nat.ne_of_lt hmore)] at hclaims
      obtain ⟨later, hlater, hcounts⟩ := @ih claimed (by omega) (.inr (by omega))
      refine ⟨kept.map (Finding.shift · start) :: later, ?_, ?_⟩
      · exact keptInWindows_cons hwindow hfindings hlater
      · intro finding
        rw [countP_cons, hcounts]
        simp only [decide_eq_true_eq, hkept]
        by_cases hfound : finding ∈ found input
        · simp only [hfound, true_and]
          split_ifs <;> omega
        · simp [hfound]

omit [DecidableEq Rule] in
theorem detectWindowed_eq {claimedTo : Nat} {kept : List (List (Finding Rule))}
    (h : keptInWindows scan input windows claimedTo = .ok kept) :
    detectWindowed scan input windows claimedTo =
      .ok (kept.any fun findings => !findings.isEmpty) := by
  induction windows generalizing claimedTo kept with
  | nil =>
    obtain rfl := Except.ok.inj h
    rfl
  | cons span windows ih =>
    obtain ⟨text, hwindow, h⟩ := bind_eq_ok_iff.mp h
    obtain ⟨first, hfindings, h⟩ := bind_eq_ok_iff.mp h
    obtain ⟨later, hlater, h⟩ := bind_eq_ok_iff.mp h
    obtain rfl := Except.ok.inj h
    refine bind_eq_ok_iff.mpr ⟨text, hwindow, bind_eq_ok_iff.mpr ⟨first, hfindings, ?_⟩⟩
    cases hempty : first.1.isEmpty with
    | true => simp [ih hlater, hempty]
    | false => simp [hempty]

theorem detectWindowed_iff (hlocal : Local found) (hreports : Reports scan found)
    (hcovers : Covers input 0 0 windows) :
    detectWindowed scan input windows 0 = .ok (!(found input).isEmpty) := by
  obtain ⟨kept, hkept, hcounts⟩ :=
    keptInWindows_counts hlocal hreports hcovers (Nat.zero_le _) (.inl rfl)
  have hsome : ∀ finding, (∃ findings ∈ kept, finding ∈ findings) ↔ finding ∈ found input := by
    intro finding
    have hcount := hcounts finding
    have hpos := @List.countP_pos_iff _ kept (fun findings => decide (finding ∈ findings))
    simp only [decide_eq_true_eq] at hpos
    rw [← hpos, hcount]
    split_ifs with h
    · exact iff_of_true Nat.one_pos h.1
    · refine iff_of_false (Nat.lt_irrefl 0) fun hfound => h ⟨hfound, ?_⟩
      have hnonempty := hlocal.nonempty input finding hfound
      omega
  rw [detectWindowed_eq hkept]
  congr 1
  rw [Bool.eq_iff_iff, any_eq_true]
  simp only [Bool.not_eq_true', isEmpty_eq_false_iff_exists_mem, ← hsome]
  exact ⟨fun ⟨findings, hmem, finding, h⟩ => ⟨finding, findings, hmem, h⟩,
    fun ⟨finding, findings, hmem, h⟩ => ⟨findings, hmem, finding, h⟩⟩

end

end Eidnara.ContextCore.Redaction
