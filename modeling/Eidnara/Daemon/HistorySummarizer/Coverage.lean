import Eidnara.Daemon.HistorySummarizer.Validate

/-!
# An accepted output covers history without gaps

The tiling check runs on the healed segments and the mapping keeps their ranges, so the emitted
segments tile the chunk.  Withholding the last of them leaves a tiling whose end no completed arc
crosses, because both ends were checked.
-/

namespace Eidnara.Daemon.HistorySummarizer

open Lib List

variable {E : Extraction} {Aliases : Type}

/-! ## What the checks establish -/

theorem reject_eq_ok {label : String} {error : Option String} {u : Unit}
    (h : reject label error = .ok u) : error = none := by
  cases error with
  | none => rfl
  | some error => cases h

variable {ordinals : List Nat}

theorem pairwise_of_validate {label : String}
    (h : validateStrictlyIncreasingOrdinals label ordinals = none) : ordinals.Pairwise (· < ·) := by
  rw [← isChain_iff_pairwise]
  fun_induction validateStrictlyIncreasingOrdinals label ordinals with
  | case1 previous rest => cases h
  | case2 previous current rest hne hlt => cases h
  | case3 previous current rest hne hge ih =>
    exact List.IsChain.cons_cons (by omega) (ih h)
  | case4 ordinals hshort =>
    match ordinals, hshort with
    | [], _ => exact List.IsChain.nil
    | [only], _ => exact List.IsChain.singleton only
    | first :: second :: rest, hshort => exact absurd rfl (hshort first second rest)

variable {chunk : HistorySummarizerChunk Aliases}

theorem present_pairwise (h : validateChunkCoverage chunk = none) :
    (chunkPresentOrdinals chunk).Pairwise (· < ·) := by
  unfold validateChunkCoverage at h
  unfold chunkPresentOrdinals
  split_ifs at h ⊢ with hempty
  · unfold validateDenseChunkCoverage at h
    cases hlines : validateStrictlyIncreasingOrdinals "chunk lines"
        (chunk.lines.map (·.ordinal)) with
    | none => exact pairwise_of_validate hlines
    | some error =>
      rw [hlines] at h
      cases h
  · unfold validateChunkCoverageAgainst at h
    cases hpresent : validateStrictlyIncreasingOrdinals "input ordinals"
        chunk.presentOrdinals with
    | none => exact pairwise_of_validate hpresent
    | some error =>
      rw [hpresent] at h
      cases h

variable {last : MessageRange}

theorem lt_start_of_validate {startIndex : Nat} {presentOrdinals : List Nat}
    {prior : List MessageRange} (h : validateChunkStart startIndex presentOrdinals prior = none)
    (hlast : prior.getLast? = some last) : last.2 < startIndex := by
  unfold validateChunkStart at h
  rw [hlast] at h
  simp only at h
  by_contra hle
  rw [if_pos (not_lt.mp hle)] at h
  cases h

variable {chunkStart chunkEnd index : Nat}

theorem checkSegment_eq_none {expected : Option Nat} {segment : ParsedHistorySegment}
    (h : checkSegment chunkStart chunkEnd ordinals index expected segment = none) :
    expected = some segment.startMessage ∧ segment.startMessage ≤ segment.endMessage ∧
      segment.startMessage ∈ ordinals ∧ segment.endMessage ∈ ordinals := by
  unfold checkSegment at h
  split_ifs at h with hblank hrange hepisode hchunk hstart hend
  cases expected with
  | none => cases h
  | some expected =>
    simp only at h
    split_ifs at h with hoverlap hgap
    have heq : expected = segment.startMessage := by omega
    exact ⟨congrArg some heq, not_lt.mp hrange, hstart, hend⟩

def ParsedHistorySegment.range (segment : ParsedHistorySegment) : MessageRange :=
  (segment.startMessage, segment.endMessage)

def ValidatedHistorySegment.range (segment : ValidatedHistorySegment E) : MessageRange :=
  (segment.startMessage, segment.endMessage)

variable {segments : List ParsedHistorySegment}

theorem tiles_of_checkSegments {expected final : Option Nat}
    (h : checkSegments chunkStart chunkEnd ordinals index expected segments = .ok final) :
    Tiles ordinals expected (segments.map (·.range)) := by
  induction segments generalizing index expected with
  | nil => trivial
  | cons segment rest ih =>
    unfold checkSegments at h
    cases hcheck : checkSegment chunkStart chunkEnd ordinals index expected segment with
    | some error =>
      rw [hcheck] at h
      cases h
    | none =>
      rw [hcheck] at h
      obtain ⟨hstart, hle, hfirst, hlast⟩ := checkSegment_eq_none hcheck
      exact ⟨hstart, hle, hfirst, hlast, ih h⟩

theorem tiles_of_validate {presentOrdinals : List Nat} {unprocessedFrom : Option Nat}
    (h : validateParsedHistorySegments segments chunkStart chunkEnd presentOrdinals
      unprocessedFrom = none) :
    Tiles (ordinalsWithin presentOrdinals chunkStart chunkEnd)
      (ordinalsWithin presentOrdinals chunkStart chunkEnd).head? (segments.map (·.range)) := by
  unfold validateParsedHistorySegments at h
  simp only at h
  cases hcheck : checkSegments chunkStart chunkEnd
      (ordinalsWithin presentOrdinals chunkStart chunkEnd) 0
      (ordinalsWithin presentOrdinals chunkStart chunkEnd).head? segments with
  | error error =>
    rw [hcheck] at h
    cases h
  | ok final => exact tiles_of_checkSegments hcheck

/-! ## The mapping keeps ranges and anchors each end -/

def AnchoredAt (chunk : HistorySummarizerChunk Aliases) (ordinal : Nat) : Prop :=
  ∃ line ∈ chunk.lines, line.ordinal = ordinal ∧ line.anchorable = true

theorem mapSegment_eq_ok {sequenceOffset : Nat} {segment : ParsedHistorySegment}
    {mapped : ValidatedHistorySegment E}
    (h : mapSegment chunk sequenceOffset index segment = .ok mapped) :
    mapped.range = segment.range ∧ AnchoredAt chunk segment.endMessage := by
  unfold mapSegment at h
  split at h
  case h_1 startLine endLine hstart hend =>
    split_ifs at h with hanchor
    cases h
    refine ⟨rfl, endLine, mem_of_find?_eq_some hend, ?_, ?_⟩
    · simpa using find?_some hend
    · simp only [Bool.or_eq_true, Bool.not_eq_true', not_or, Bool.not_eq_false] at hanchor
      exact hanchor.1
  case h_2 => cases h

theorem mapSegmentsFrom_eq_ok {sequenceOffset : Nat} {mapped : List (ValidatedHistorySegment E)}
    (h : mapSegmentsFrom chunk sequenceOffset index segments = .ok mapped) :
    mapped.map (·.range) = segments.map (·.range) ∧
      ∀ range ∈ segments.map (·.range), AnchoredAt chunk range.2 := by
  induction segments generalizing index mapped with
  | nil =>
    cases h
    exact ⟨rfl, fun range hrange => absurd hrange not_mem_nil⟩
  | cons segment rest ih =>
    obtain ⟨first, hfirst, h⟩ := bind_eq_ok_iff.mp h
    obtain ⟨others, hothers, h⟩ := bind_eq_ok_iff.mp h
    cases h
    obtain ⟨hrange, hanchored⟩ := mapSegment_eq_ok hfirst
    obtain ⟨hranges, hall⟩ := ih hothers
    exact ⟨by rw [map_cons, map_cons, hrange, hranges],
      forall_mem_cons.mpr ⟨hanchored, hall⟩⟩

/-! ## Emitted and persisted segments -/

def KeepsArcs (chunk : HistorySummarizerChunk Aliases) (last : Nat) : Prop :=
  ∀ arc ∈ chunk.completedToolArcs, ¬(arc.1 ≤ last ∧ last < arc.2)

theorem keepsArcs_of_splits {last : Nat} (hlast : last < u64Max)
    (h : boundarySplitsCompletedToolArc (saturatingSucc last) chunk.completedToolArcs = false) :
    KeepsArcs chunk last := by
  rintro arc harc ⟨hcall, hresult⟩
  have hcross := any_eq_false.mp h arc harc
  rw [saturatingSucc_of_lt hlast] at hcross
  exact hcross (crosses_iff.mpr ⟨by omega, by omega⟩)

def chunkOrdinals (chunk : HistorySummarizerChunk Aliases) : List Nat :=
  ordinalsWithin (chunkPresentOrdinals chunk) chunk.startIndex chunk.endIndex

theorem mem_chunkOrdinals {ordinal : Nat} :
    ordinal ∈ chunkOrdinals chunk ↔
      ordinal ∈ chunkPresentOrdinals chunk ∧ chunk.startIndex ≤ ordinal ∧
        ordinal ≤ chunk.endIndex := by
  simp [chunkOrdinals, ordinalsWithin]

/-- Ranges that tile the chunk from its first ordinal, end on anchorable lines and split no
completed arc at their last end. -/
structure Sound (chunk : HistorySummarizerChunk Aliases) (ranges : List MessageRange) : Prop where
  ne_nil : ranges ≠ []
  tiles : Tiles (chunkOrdinals chunk) (chunkOrdinals chunk).head? ranges
  anchored : ∀ range ∈ ranges, AnchoredAt chunk range.2
  keepsArcs : ∀ last, ranges.getLast? = some last → KeepsArcs chunk last.2

variable {ranges : List MessageRange}

theorem end_lt_of_tiles (hordinals : ∀ ordinal ∈ chunkPresentOrdinals chunk, ordinal < u64Max)
    (htiles : Tiles (chunkOrdinals chunk) (chunkOrdinals chunk).head? ranges) {range : MessageRange}
    (hrange : range ∈ ranges) : range.2 < u64Max :=
  hordinals _ (mem_chunkOrdinals.mp (htiles.span_mem hrange).2.2).1

theorem ne_nil_healGaps (toolOnlyRanges : List MessageRange) (presentOrdinals : List Nat)
    (h : segments ≠ []) : healHistorySegmentGaps toolOnlyRanges presentOrdinals segments ≠ [] := by
  match segments with
  | [] => exact absurd rfl h
  | [_] => exact cons_ne_nil _ _
  | _ :: _ :: _ => exact cons_ne_nil _ _

theorem ne_nil_healTerminal (arcs : List MessageRange) (presentOrdinals : List Nat) (chunkEnd : Nat)
    (unprocessedFrom : Option Nat) (h : segments ≠ []) :
    (healTerminalCompletedToolArc arcs presentOrdinals chunkEnd segments unprocessedFrom).1 ≠
      [] := by
  unfold healTerminalCompletedToolArc
  split
  · exact h
  · exact append_ne_nil_of_right_ne_nil _ (cons_ne_nil _ _)

theorem sound_of_emitSegments {parsed : ParsedHistorySegmentOutput E}
    {chunk : HistorySummarizerChunk E.Aliases} {options : ValidateOptions}
    {emitted : List (ValidatedHistorySegment E)}
    (hordinals : ∀ ordinal ∈ chunkPresentOrdinals chunk, ordinal < u64Max)
    (hne : parsed.historySegments ≠ []) (h : emitSegments parsed chunk options = .ok emitted) :
    Sound chunk (emitted.map (·.range)) := by
  unfold emitSegments at h
  have hhealed := ne_nil_healTerminal chunk.completedToolArcs (chunkPresentOrdinals chunk)
    chunk.endIndex parsed.unprocessedFrom
    (ne_nil_healGaps chunk.toolOnlyRanges (chunkPresentOrdinals chunk) hne)
  simp only at h
  generalize healTerminalCompletedToolArc _ _ _ _ _ = healed at h hhealed
  obtain ⟨segments, unprocessedFrom⟩ := healed
  obtain ⟨mapped, hmapped, h⟩ := bind_eq_ok_iff.mp h
  obtain ⟨_, hvalid, h⟩ := bind_eq_ok_iff.mp h
  split_ifs at h with hsplit
  cases h
  obtain ⟨hranges, hanchored⟩ := mapSegmentsFrom_eq_ok (mapError_eq_ok_iff.mp hmapped)
  have htiles : Tiles (chunkOrdinals chunk) (chunkOrdinals chunk).head?
      (segments.map (·.range)) := tiles_of_validate (reject_eq_ok hvalid)
  rw [hranges]
  refine ⟨fun hnil => hhealed (map_eq_nil_iff.mp hnil), htiles, hanchored, ?_⟩
  intro last hlast
  refine keepsArcs_of_splits (end_lt_of_tiles hordinals htiles (mem_of_getLast? hlast)) ?_
  rw [getLast?_map] at hlast
  obtain ⟨segment, hsegment, rfl⟩ := Option.map_eq_some_iff.mp hlast
  rwa [hsegment, Option.any_some, Bool.not_eq_true] at hsplit

theorem Sound.persisted {chunk : HistorySummarizerChunk E.Aliases} {options : ValidateOptions}
    {emitted : List (ValidatedHistorySegment E)}
    (hordinals : ∀ ordinal ∈ chunkPresentOrdinals chunk, ordinal < u64Max)
    (h : Sound chunk (emitted.map (·.range))) (hdiscard : discardsLast chunk options emitted) :
    Sound chunk (emitted.dropLast.map (·.range)) := by
  unfold discardsLast at hdiscard
  split_ifs at hdiscard with hkeep
  simp only [Bool.or_eq_true, decide_eq_true_eq, not_or, not_lt] at hkeep
  simp only [Bool.and_eq_true, Bool.not_eq_true'] at hdiscard
  rw [map_dropLast]
  have htiles : Tiles (chunkOrdinals chunk) (chunkOrdinals chunk).head?
      (emitted.map (·.range)).dropLast := by
    have hall := h.tiles
    rw [← dropLast_append_getLast h.ne_nil] at hall
    exact hall.of_append
  refine ⟨?_, htiles, fun range hrange => h.anchored range (dropLast_subset _ hrange), ?_⟩
  · intro hnil
    have hlength := congrArg List.length hnil
    rw [length_dropLast, length_map, length_nil] at hlength
    omega
  · intro last hlast
    refine keepsArcs_of_splits (end_lt_of_tiles hordinals htiles (mem_of_getLast? hlast)) ?_
    rw [getLast?_dropLast, length_map, if_neg (by omega), getElem?_map] at hlast
    obtain ⟨previous, hprevious, rfl⟩ := Option.map_eq_some_iff.mp hlast
    have hsplit := hdiscard.2
    rwa [hprevious, Option.any_some] at hsplit

theorem range_attachClaims (segments : List (ValidatedHistorySegment E))
    (claims : List (List E.Claim)) :
    (attachClaims segments claims).map (·.range) = segments.map (·.range) := by
  induction segments generalizing claims with
  | nil => cases claims <;> rfl
  | cons segment rest ih =>
    cases claims with
    | nil => rfl
    | cons first others => exact congrArg (segment.range :: ·) (ih others)

theorem range_extractClaims (aliases : E.Aliases) (parsed : ParsedHistorySegmentOutput E)
    (segments : List (ValidatedHistorySegment E)) :
    (extractClaims aliases parsed segments).2.map (·.range) = segments.map (·.range) := by
  unfold extractClaims
  split_ifs
  · rfl
  · split
    · rfl
    · exact range_attachClaims _ _

/-- What acceptance guarantees for the persisted ranges and the publication floor. -/
structure Covers (chunk : HistorySummarizerChunk Aliases) (prior ranges : List MessageRange)
    (unprocessedFrom : Nat) : Prop where
  ne_nil : ranges ≠ []
  first_start : ranges.head?.map Prod.fst = (chunkOrdinals chunk).head?
  next_start : ∀ i range following, ranges[i]? = some range → ranges[i + 1]? = some following →
    nextAfter (chunkOrdinals chunk) range.2 = some following.1
  end_anchored : ∀ range ∈ ranges, range.2 ∈ chunkOrdinals chunk ∧ AnchoredAt chunk range.2
  covered_once : ∀ last, ranges.getLast? = some last →
    ∀ ordinal ∈ chunkOrdinals chunk, ordinal ≤ last.2 →
      ∃! i : Nat, ∃ range : MessageRange, ranges[i]? = some range ∧ range.1 ≤ ordinal ∧
        ordinal ≤ range.2
  beyond_prior : ∀ last, prior.getLast? = some last →
    ∀ ordinal ∈ chunkOrdinals chunk, last.2 < ordinal
  keepsArcs : ∀ last, ranges.getLast? = some last →
    ∀ arc ∈ chunk.completedToolArcs, ¬(arc.1 ≤ last.2 ∧ last.2 < arc.2)
  floor_above : ∀ range ∈ ranges, ∀ ordinal, range.1 ≤ ordinal → ordinal ≤ range.2 →
    ordinal < unprocessedFrom
  floor_below : ∀ ordinal ∈ chunkPresentOrdinals chunk, chunk.startIndex ≤ ordinal →
    (∀ range ∈ ranges, ¬(range.1 ≤ ordinal ∧ ordinal ≤ range.2)) → unprocessedFrom ≤ ordinal

theorem Sound.head_eq (h : Sound chunk ranges) :
    ranges.head?.map Prod.fst = (chunkOrdinals chunk).head? := by
  have hne := h.ne_nil
  have htiles := h.tiles
  cases ranges with
  | nil => exact absurd rfl hne
  | cons first rest => exact htiles.1.symm

theorem Sound.exists_range (h : Sound chunk ranges)
    (hsorted : (chunkOrdinals chunk).Pairwise (· < ·)) (hlast : ranges.getLast? = some last)
    {ordinal : Nat} (hmem : ordinal ∈ chunkOrdinals chunk) (hle : ordinal ≤ last.2) :
    ∃ i : Nat, ∃ range : MessageRange, ranges[i]? = some range ∧ range.1 ≤ ordinal ∧
      ordinal ≤ range.2 := by
  have hhead := h.head_eq
  cases hordinals : chunkOrdinals chunk with
  | nil =>
    rw [hordinals] at hmem
    cases hmem
  | cons first rest =>
    rw [hordinals, head?_cons] at hhead
    obtain ⟨range, hrange, rfl⟩ := Option.map_eq_some_iff.mp hhead
    refine h.tiles.exists_span hsorted hmem hrange hlast ?_ hle
    rw [hordinals] at hmem hsorted
    rcases mem_cons.mp hmem with rfl | hmem
    · exact le_rfl
    · exact ((pairwise_cons.mp hsorted).1 ordinal hmem).le

theorem Sound.covers {prior : List MessageRange} (h : Sound chunk ranges)
    (hsorted : (chunkPresentOrdinals chunk).Pairwise (· < ·))
    (hprior : ∀ last, prior.getLast? = some last → last.2 < chunk.startIndex)
    (hlast : ranges.getLast? = some last) :
    Covers chunk prior ranges (last.2 + 1) where
  ne_nil := h.ne_nil
  first_start := h.head_eq
  next_start _ _ _ := h.tiles.start_eq
  end_anchored range hrange := ⟨(h.tiles.span_mem hrange).2.2, h.anchored range hrange⟩
  covered_once last hlast ordinal hmem hle := by
    obtain ⟨i, range, hrange, hin⟩ := h.exists_range (hsorted.filter _) hlast hmem hle
    refine ⟨i, ⟨range, hrange, hin⟩, ?_⟩
    rintro j ⟨other, hother, hin'⟩
    exact h.tiles.span_unique hother hrange hin' hin
  beyond_prior stored hstored ordinal hmem :=
    (hprior stored hstored).trans_le (mem_chunkOrdinals.mp hmem).2.1
  keepsArcs := h.keepsArcs
  floor_above range hrange ordinal _ hle := by
    have hbound := h.tiles.le_last hlast hrange
    omega
  floor_below ordinal hmem hstart huncovered := by
    by_contra hlt
    have hend := (h.tiles.span_mem (mem_of_getLast? hlast)).2.2
    have hwithin : ordinal ∈ chunkOrdinals chunk :=
      mem_chunkOrdinals.mpr ⟨hmem, hstart, by have := (mem_chunkOrdinals.mp hend).2.2; omega⟩
    obtain ⟨i, range, hrange, hin⟩ := h.exists_range (hsorted.filter _) hlast hwithin (by omega)
    exact huncovered range (mem_of_getElem? hrange) hin

def plainExtraction : Extraction :=
  ⟨Unit, Unit, Unit, Unit, Unit, Unit, fun _ _ _ => .ok (), fun _ _ _ => ([], ()), (), fun _ => ()⟩

def plainSegment (startMessage endMessage : Nat) : ParsedHistorySegment :=
  ⟨startMessage, endMessage, "title", "text", some "text", none, none, none, none, none⟩

/-- Two segments, the second ending between a call and its result. -/
def plainOutput : ParsedHistorySegmentOutput plainExtraction :=
  ⟨[plainSegment 1 1, plainSegment 3 3], [], false, none, [], some 4, [], [], [], false, none⟩

def plainChunk : HistorySummarizerChunk Unit :=
  ⟨1, 6, [⟨1, "m1#0", true⟩, ⟨3, "m3#0", true⟩, ⟨4, "m4#0", true⟩, ⟨6, "m6#0", true⟩], (),
    [0, 1, 3, 4, 6], [], [(3, 4)]⟩

/-- An accepted output covers history without gaps and publishes no half of a tool call,
whatever the parser returned. -/
theorem accepted_covers (parse : String → Except String (ParsedHistorySegmentOutput E))
    (text : String) (chunk : HistorySummarizerChunk E.Aliases) (prior : List MessageRange)
    (options : ValidateOptions) (result : ValidatedChunk E)
    (hordinals : ∀ ordinal ∈ chunkPresentOrdinals chunk, ordinal < u64Max)
    (haccept : validateHistorySummarizerOutput parse text chunk prior options = .ok result) :
    Covers chunk prior (result.historySegments.map (·.range)) result.unprocessedFrom := by
  obtain ⟨_, hcoverage, haccept⟩ := bind_eq_ok_iff.mp haccept
  obtain ⟨_, -, haccept⟩ := bind_eq_ok_iff.mp haccept
  obtain ⟨_, hstart, haccept⟩ := bind_eq_ok_iff.mp haccept
  obtain ⟨parsed, -, haccept⟩ := bind_eq_ok_iff.mp haccept
  split_ifs at haccept with hempty
  obtain ⟨emitted, hemitted, haccept⟩ := bind_eq_ok_iff.mp haccept
  have hsound := sound_of_emitSegments hordinals
    (fun hnil => hempty (List.isEmpty_iff.mpr hnil)) hemitted
  have hpersisted : Sound chunk
      ((if discardsLast chunk options emitted then emitted.dropLast else emitted).map
        (·.range)) := by
    split_ifs with hdiscard
    · exact hsound.persisted hordinals hdiscard
    · exact hsound
  unfold finish at haccept
  simp only at haccept
  generalize (if discardsLast chunk options emitted then emitted.dropLast else emitted) =
    segments at haccept hpersisted
  split_ifs at haccept with hprogress
  cases haccept
  obtain ⟨last, hlast⟩ := getLast?_isSome.mpr hpersisted.ne_nil |> Option.isSome_iff_exists.mp
  have hfloor : (segments.getLast?.map (·.endMessage)).getD 0 = last.2 := by
    rw [getLast?_map] at hlast
    obtain ⟨segment, hsegment, rfl⟩ := Option.map_eq_some_iff.mp hlast
    rw [hsegment]
    rfl
  have hlt := end_lt_of_tiles hordinals hpersisted.tiles (mem_of_getLast? hlast)
  have hcovers := hpersisted.covers (present_pairwise (reject_eq_ok hcoverage))
    (fun stored hstored => lt_start_of_validate (reject_eq_ok hstart) hstored) hlast
  unfold publish
  simp only [range_extractClaims, hfloor, saturatingSucc_of_lt hlt]
  exact hcovers

theorem accepted_covers_healed :
    ∃ result, validateHistorySummarizerOutput (E := plainExtraction) (fun _ => .ok plainOutput) ""
        plainChunk [(0, 0)] ⟨0, true, true, false⟩ = .ok result ∧
      result.historySegments.map (·.range) = [(1, 1), (3, 4)] ∧
      Covers plainChunk [(0, 0)] (result.historySegments.map (·.range))
        result.unprocessedFrom := by
  refine ⟨_, rfl, rfl, ?_⟩
  exact accepted_covers (E := plainExtraction) (fun _ => .ok plainOutput) "" plainChunk [(0, 0)]
    ⟨0, true, true, false⟩ _ (by decide) rfl

end Eidnara.Daemon.HistorySummarizer
