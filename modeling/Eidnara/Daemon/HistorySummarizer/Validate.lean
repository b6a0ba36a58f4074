import Eidnara.Lib.Checked
import Eidnara.Lib.Tilings
import Mathlib.Data.String.Basic

/-!
# Validation of a summarizer's output

`validateHistorySummarizerOutput` heals the ranges of the parsed segments, checks that they tile
the chunk, withholds a provisional last segment and returns what may be published.  The parser,
and the checks of fact and claim sets, are parameters.
-/

namespace Eidnara.Daemon.HistorySummarizer

open Lib

/-- A range of messages with both endpoints. -/
abbrev MessageRange := Span

structure ChunkLine where
  ordinal : Nat
  messageId : String
  anchorable : Bool
  deriving DecidableEq, Repr

structure HistorySummarizerChunk (Aliases : Type) where
  startIndex : Nat
  endIndex : Nat
  lines : List ChunkLine
  aliases : Aliases
  presentOrdinals : List Nat
  toolOnlyRanges : List MessageRange
  completedToolArcs : List MessageRange

structure ValidateOptions where
  sequenceOffset : Nat
  inEmergency : Bool
  memoryEnabled : Bool
  forceKeepLastHistorySegment : Bool

structure ParsedHistorySegment where
  startMessage : Nat
  endMessage : Nat
  title : String
  content : String
  p1 : Option String
  p2 : Option String
  p3 : Option String
  p4 : Option String
  importance : Option Nat
  episodeType : Option String
  deriving DecidableEq, Repr

structure ParsedEvent where
  kind : String
  atHistorySegment : Option Nat
  fields : List (String × String)
  deriving DecidableEq, Repr

structure SideCandidate where
  content : String
  originHistorySegmentIndex : Option Nat
  deriving DecidableEq, Repr

/-- The checks of cited facts and claims, with the data they are about. -/
structure Extraction where
  Aliases : Type
  Fact : Type
  Failure : Type
  ClaimCandidate : Type
  Claim : Type
  ClaimsOutcome : Type
  checkFactSet : List Fact → Aliases → Option MessageRange → Except Failure Unit
  checkClaimSet : List ClaimCandidate → Aliases → List (MessageRange × String) →
    List (List Claim) × ClaimsOutcome
  claimsNotRequested : ClaimsOutcome
  claimsRejected : Failure → ClaimsOutcome

variable (E : Extraction)

structure ParsedHistorySegmentOutput where
  historySegments : List ParsedHistorySegment
  facts : List E.Fact
  factsBlockPresent : Bool
  factSyntaxFailure : Option E.Failure
  events : List ParsedEvent
  unprocessedFrom : Option Nat
  userObservations : List SideCandidate
  primerCandidates : List SideCandidate
  claims : List E.ClaimCandidate
  claimsBlockPresent : Bool
  claimsSyntaxFailure : Option E.Failure

structure ValidatedHistorySegment where
  sequence : Nat
  startMessage : Nat
  endMessage : Nat
  startMessageId : String
  endMessageId : String
  title : String
  content : String
  p1 : Option String
  p2 : Option String
  p3 : Option String
  p4 : Option String
  importance : Option Nat
  episodeType : Option String
  claims : List E.Claim

inductive ExtractionOutcome
  | notRequested
  | noFacts
  | accepted (count : Nat)
  | rejected (failure : E.Failure)

structure ValidatedChunk where
  historySegments : List (ValidatedHistorySegment E)
  facts : List E.Fact
  extraction : ExtractionOutcome E
  claimsOutcome : E.ClaimsOutcome
  events : List ParsedEvent
  primerCandidates : List SideCandidate
  userObservations : List SideCandidate
  unprocessedFrom : Nat
  discardedLast : Bool

variable {E} {Aliases : Type}

/-! ## The chunk and the stored ranges -/

def chunkPresentOrdinals (chunk : HistorySummarizerChunk Aliases) : List Nat :=
  if chunk.presentOrdinals.isEmpty then chunk.lines.map (·.ordinal) else chunk.presentOrdinals

def ordinalsWithin (presentOrdinals : List Nat) (first last : Nat) : List Nat :=
  presentOrdinals.filter fun ordinal => first ≤ ordinal && ordinal ≤ last

def validateStrictlyIncreasingOrdinals (label : String) : List Nat → Option String
  | previous :: current :: rest =>
    if current = previous then
      some (label ++ " contain duplicate raw message ordinal " ++ toString current)
    else if current < previous then
      some (label ++ " decrease from raw message " ++ toString previous ++ " to " ++
        toString current)
    else validateStrictlyIncreasingOrdinals label (current :: rest)
  | _ => none

def omits (ordinal endIndex : Nat) : String :=
  "chunk omits raw message " ++ toString ordinal ++ " while still claiming coverage through " ++
    toString endIndex

def includes (chunk : HistorySummarizerChunk Aliases) (ordinal : Nat) : String :=
  "chunk includes raw message " ++ toString ordinal ++ " that is not present in input range " ++
    toString chunk.startIndex ++ "-" ++ toString chunk.endIndex

def validateDenseLines (endIndex : Nat) : Nat → List ChunkLine → Option String
  | expected, [] => if expected - 1 ≠ endIndex then some (omits expected endIndex) else none
  | expected, line :: rest =>
    if line.ordinal ≠ expected then some (omits expected endIndex)
    else validateDenseLines endIndex (saturatingSucc expected) rest

def validateDenseChunkCoverage (chunk : HistorySummarizerChunk Aliases) : Option String :=
  match validateStrictlyIncreasingOrdinals "chunk lines" (chunk.lines.map (·.ordinal)) with
  | some error => some error
  | none =>
    if chunk.lines.isEmpty then none
    else validateDenseLines chunk.endIndex chunk.startIndex chunk.lines

def compareOrdinals (chunk : HistorySummarizerChunk Aliases) : List Nat → List Nat → Option String
  | line :: lines, expected :: rest =>
    if line = expected then compareOrdinals chunk lines rest
    else if expected < line then some (omits expected chunk.endIndex)
    else some (includes chunk line)
  | [], missing :: _ => some (omits missing chunk.endIndex)
  | extra :: _, [] => some (includes chunk extra)
  | [], [] => none

def validateChunkCoverageAgainst (chunk : HistorySummarizerChunk Aliases)
    (presentOrdinals : List Nat) : Option String :=
  let lineOrdinals := chunk.lines.map (·.ordinal)
  match validateStrictlyIncreasingOrdinals "input ordinals" presentOrdinals with
  | some error => some error
  | none =>
    match validateStrictlyIncreasingOrdinals "chunk lines" lineOrdinals with
    | some error => some error
    | none =>
      match lineOrdinals.find? fun o => o < chunk.startIndex || chunk.endIndex < o with
      | some outside =>
        some ("chunk line raw message " ++ toString outside ++
          " is outside claimed coverage " ++ toString chunk.startIndex ++ "-" ++
          toString chunk.endIndex)
      | none =>
        compareOrdinals chunk lineOrdinals
          (ordinalsWithin presentOrdinals chunk.startIndex chunk.endIndex)

def validateChunkCoverage (chunk : HistorySummarizerChunk Aliases) : Option String :=
  if chunk.presentOrdinals.isEmpty then validateDenseChunkCoverage chunk
  else validateChunkCoverageAgainst chunk chunk.presentOrdinals

def invalidRange (range : MessageRange) : String :=
  "invalid range " ++ toString range.1 ++ "-" ++ toString range.2

def validateStoredAfter : Nat → List MessageRange → Option String
  | _, [] => none
  | previousEnd, range :: rest =>
    if range.2 < range.1 then some (invalidRange range)
    else if range.1 ≤ previousEnd then
      some ("overlap before message " ++ toString (saturatingSucc previousEnd) ++ " (saw " ++
        toString range.1 ++ "-" ++ toString range.2 ++ ")")
    else validateStoredAfter range.2 rest

def validateStoredHistorySegments : List MessageRange → Option String
  | [] => none
  | first :: rest =>
    if first.2 < first.1 then some (invalidRange first) else validateStoredAfter first.2 rest

/-- The chunk starts right after the last stored range. -/
def validateChunkStart (startIndex : Nat) (presentOrdinals : List Nat)
    (prior : List MessageRange) : Option String :=
  match prior.getLast? with
  | none => none
  | some last =>
    let starts := "HistorySummarizer chunk starts at raw message " ++ toString startIndex ++
      " but existing history_segments end at " ++ toString last.2
    if startIndex ≤ last.2 then some (starts ++ "; expected a strictly newer raw message")
    else match nextAfter presentOrdinals last.2 with
      | none => none
      | some expected =>
        if startIndex ≠ expected then
          some (starts ++ "; expected next present raw message " ++ toString expected)
        else none

/-! ## Healing -/

/-- The end of a segment, moved over an omitted stretch of tool-only messages. -/
def healGap (toolOnlyRanges : List MessageRange) (presentOrdinals : List Nat)
    (segment following : ParsedHistorySegment) : ParsedHistorySegment :=
  let gapStart := saturatingSucc segment.endMessage
  let gapEnd := following.startMessage - 1
  if gapEnd < gapStart then segment
  else
    let omitted := ordinalsWithin presentOrdinals gapStart gapEnd
    match omitted.getLast? with
    | none => segment
    | some last =>
      if omitted.all fun o => toolOnlyRanges.any fun range => range.1 ≤ o && o ≤ range.2 then
        { segment with endMessage := last }
      else segment

def healHistorySegmentGaps (toolOnlyRanges : List MessageRange) (presentOrdinals : List Nat) :
    List ParsedHistorySegment → List ParsedHistorySegment
  | segment :: following :: rest =>
    healGap toolOnlyRanges presentOrdinals segment following ::
      healHistorySegmentGaps toolOnlyRanges presentOrdinals (following :: rest)
  | segments => segments

/-- The last end, moved past the completed arcs of the chunk that cross it. -/
def healEnd (arcs : List MessageRange) (chunkEnd : Nat) : Nat → Nat → Nat
  | 0, last => last
  | rounds + 1, last =>
    let crossing := arcs.filter fun arc => arc.2 ≤ chunkEnd && crosses arc (saturatingSucc last)
    let nextEnd := ((crossing.map Prod.snd).max?).getD last
    if nextEnd = last then last else healEnd arcs chunkEnd rounds nextEnd

/-- The healed segments, and the unprocessed start that goes with them. -/
def healTerminalCompletedToolArc (arcs : List MessageRange) (presentOrdinals : List Nat)
    (chunkEnd : Nat) (segments : List ParsedHistorySegment) (unprocessedFrom : Option Nat) :
    List ParsedHistorySegment × Option Nat :=
  match segments.getLast? with
  | none => (segments, unprocessedFrom)
  | some last =>
    let healed := healEnd arcs chunkEnd (arcs.length + 1) last.endMessage
    (segments.dropLast ++ [{ last with endMessage := healed }],
      if healed ≠ last.endMessage then
        unprocessedFrom.map fun _ => (nextAfter presentOrdinals healed).getD (saturatingSucc healed)
      else unprocessedFrom)

/-! ## Mapping to the chunk's lines -/

def mapSegment (chunk : HistorySummarizerChunk Aliases) (sequenceOffset index : Nat)
    (segment : ParsedHistorySegment) : Except String (ValidatedHistorySegment E) :=
  match chunk.lines.find? (·.ordinal = segment.startMessage),
      chunk.lines.find? (·.ordinal = segment.endMessage) with
  | some startLine, some endLine =>
    if !endLine.anchorable || endLine.messageId.isEmpty then
      .error ("HistorySegment ending at raw message " ++ toString segment.endMessage ++
        " cannot anchor a boundary because that message has no flat blocks")
    else
      .ok
        { -- Unchecked addition wraps.
          sequence := (sequenceOffset + index) % 2 ^ 64
          startMessage := segment.startMessage
          endMessage := segment.endMessage
          startMessageId := startLine.messageId
          endMessageId := endLine.messageId
          title := segment.title
          content := segment.content
          p1 := segment.p1
          p2 := segment.p2
          p3 := segment.p3
          p4 := segment.p4
          importance := segment.importance
          episodeType := segment.episodeType
          claims := [] }
  | _, _ =>
    .error ("HistorySegment range " ++ toString segment.startMessage ++ "-" ++
      toString segment.endMessage ++ " does not map to raw session lines " ++
      toString chunk.startIndex ++ "-" ++ toString chunk.endIndex)

def mapSegmentsFrom (chunk : HistorySummarizerChunk Aliases) (sequenceOffset : Nat) :
    Nat → List ParsedHistorySegment → Except String (List (ValidatedHistorySegment E))
  | _, [] => .ok []
  | index, segment :: rest => do
    let mapped ← mapSegment chunk sequenceOffset index segment
    let others ← mapSegmentsFrom chunk sequenceOffset (index + 1) rest
    .ok (mapped :: others)

def mapParsedHistorySegmentsToChunk (segments : List ParsedHistorySegment)
    (chunk : HistorySummarizerChunk Aliases) (sequenceOffset : Nat) :
    Except String (List (ValidatedHistorySegment E)) :=
  mapSegmentsFrom chunk sequenceOffset 0 segments

/-! ## The tiling check -/

def archiveEpisodeType : String := "archive"

/-- Unicode `White_Space`. -/
def isWhitespace (c : Char) : Bool :=
  let n := c.toNat
  (9 ≤ n && n ≤ 13) || n = 0x20 || n = 0x85 || n = 0xa0 || n = 0x1680 ||
    (0x2000 ≤ n && n ≤ 0x200a) || n = 0x2028 || n = 0x2029 || n = 0x202f || n = 0x205f ||
    n = 0x3000

/-- What is wrong with one segment, where `expected` is the next uncovered ordinal. -/
def checkSegment (chunkStart chunkEnd : Nat) (chunkOrdinals : List Nat) (index : Nat)
    (expected : Option Nat) (segment : ParsedHistorySegment) : Option String :=
  let range := toString segment.startMessage ++ "-" ++ toString segment.endMessage
  let chunk := toString chunkStart ++ "-" ++ toString chunkEnd
  if (segment.p1.getD "").toList.all isWhitespace then
    some ("history_segment " ++ toString (index + 1) ++
      " is missing the tiered paraphrase structure (p1..p4); re-emit with all four tiers")
  else if segment.endMessage < segment.startMessage then some ("invalid range " ++ range)
  else if segment.episodeType = some archiveEpisodeType then
    some ("history_segment " ++ toString (index + 1) ++ " claims the reserved episode_type " ++
      "\"" ++ archiveEpisodeType ++ "\"; choose another episode type")
  else if segment.startMessage < chunkStart || chunkEnd < segment.endMessage then
    some ("range " ++ range ++ " is outside chunk " ++ chunk)
  else if segment.startMessage ∉ chunkOrdinals then
    some ("range start " ++ toString segment.startMessage ++
      " is not a present raw message in chunk " ++ chunk)
  else if segment.endMessage ∉ chunkOrdinals then
    some ("range end " ++ toString segment.endMessage ++
      " is not a present raw message in chunk " ++ chunk)
  else match expected with
    | none => some ("range " ++ range ++ " starts after chunk coverage already ended")
    | some expected =>
      if segment.startMessage < expected then
        some ("overlap before message " ++ toString expected ++ " (saw " ++ range ++ ")")
      else if expected < segment.startMessage then
        some ("gap before present message " ++ toString segment.startMessage ++ " (expected " ++
          toString expected ++ ")")
      else none

def checkSegments (chunkStart chunkEnd : Nat) (chunkOrdinals : List Nat) :
    Nat → Option Nat → List ParsedHistorySegment → Except String (Option Nat)
  | _, expected, [] => .ok expected
  | index, expected, segment :: rest =>
    match checkSegment chunkStart chunkEnd chunkOrdinals index expected segment with
    | some error => .error error
    | none =>
      checkSegments chunkStart chunkEnd chunkOrdinals (index + 1)
        (nextAfter chunkOrdinals segment.endMessage) rest

def checkUnprocessed (chunkStart chunkEnd : Nat) (expected unprocessedFrom : Option Nat) :
    Option String :=
  match unprocessedFrom, expected with
  | some unprocessed, some expected =>
    if unprocessed ≠ expected then
      some ("<unprocessed_from> " ++ toString unprocessed ++
        " does not match next uncovered message " ++ toString expected)
    else none
  | some unprocessed, none =>
    if unprocessed = saturatingSucc chunkEnd then none
    else if unprocessed < chunkStart || chunkEnd < unprocessed then
      some ("<unprocessed_from> " ++ toString unprocessed ++ " is outside chunk " ++
        toString chunkStart ++ "-" ++ toString chunkEnd)
    else
      some ("<unprocessed_from> " ++ toString unprocessed ++
        " does not match completed chunk boundary " ++ toString (saturatingSucc chunkEnd))
  | none, some expected =>
    some ("output left uncovered messages " ++ toString expected ++ "-" ++ toString chunkEnd ++
      " without <unprocessed_from>")
  | none, none => none

def validateParsedHistorySegments (segments : List ParsedHistorySegment)
    (chunkStart chunkEnd : Nat) (presentOrdinals : List Nat) (unprocessedFrom : Option Nat) :
    Option String :=
  let chunkOrdinals := ordinalsWithin presentOrdinals chunkStart chunkEnd
  match checkSegments chunkStart chunkEnd chunkOrdinals 0 chunkOrdinals.head? segments with
  | .error error => some error
  | .ok expected => checkUnprocessed chunkStart chunkEnd expected unprocessedFrom

def boundarySplitsCompletedToolArc (boundary : Nat) (arcs : List MessageRange) : Bool :=
  arcs.any (crosses · boundary)

/-! ## What is published -/

def boundaryHealingSlack : Nat := 2

/-- A last segment close to the chunk's end is withheld, unless that would split an arc. -/
def discardsLast (chunk : HistorySummarizerChunk Aliases) (options : ValidateOptions)
    (segments : List (ValidatedHistorySegment E)) : Bool :=
  if options.inEmergency || options.forceKeepLastHistorySegment || segments.length < 2 then false
  else
    let lastEnd := (segments.getLast?.map (·.endMessage)).getD chunk.endIndex
    let popWouldSplitArc := (segments[segments.length - 2]?).any fun previous =>
      boundarySplitsCompletedToolArc (saturatingSucc previous.endMessage) chunk.completedToolArcs
    chunk.endIndex - lastEnd ≤ boundaryHealingSlack && !popWouldSplitArc

def keepSideChannel (origin : Option Nat) (persistedCount : Nat) (discardedLast : Bool) : Bool :=
  if discardedLast then false
  else match origin with
    | some index => 1 ≤ index && index ≤ persistedCount
    | none => true

def keepEvent (options : ValidateOptions) (persistedCount : Nat) (discardedLast : Bool)
    (event : ParsedEvent) : Bool :=
  if options.forceKeepLastHistorySegment then
    event.atHistorySegment.any fun index => 1 ≤ index && index < persistedCount
  else keepSideChannel event.atHistorySegment persistedCount discardedLast

def keepCandidate (options : ValidateOptions) (persistedCount : Nat) (discardedLast : Bool)
    (candidate : SideCandidate) : Bool :=
  !options.forceKeepLastHistorySegment &&
    keepSideChannel candidate.originHistorySegmentIndex persistedCount discardedLast

def extractFacts (options : ValidateOptions) (aliases : E.Aliases)
    (parsed : ParsedHistorySegmentOutput E) (citable : Option MessageRange) :
    ExtractionOutcome E × List E.Fact :=
  if !options.memoryEnabled then (.notRequested, [])
  else match parsed.factSyntaxFailure with
    | some failure => (.rejected failure, [])
    | none =>
      if parsed.facts.isEmpty then
        (if parsed.factsBlockPresent then .noFacts else .notRequested, [])
      else match E.checkFactSet parsed.facts aliases citable with
        | .ok () => (.accepted parsed.facts.length, parsed.facts)
        | .error failure => (.rejected failure, [])

def attachClaims : List (ValidatedHistorySegment E) → List (List E.Claim) →
    List (ValidatedHistorySegment E)
  | segment :: segments, claims :: rest => { segment with claims } :: attachClaims segments rest
  | segments, _ => segments

def extractClaims (aliases : E.Aliases) (parsed : ParsedHistorySegmentOutput E)
    (segments : List (ValidatedHistorySegment E)) :
    E.ClaimsOutcome × List (ValidatedHistorySegment E) :=
  if !parsed.claimsBlockPresent then (E.claimsNotRequested, segments)
  else match parsed.claimsSyntaxFailure with
    | some failure => (E.claimsRejected failure, segments)
    | none =>
      let ranges := segments.map fun segment =>
        ((segment.startMessage, segment.endMessage), segment.p1.getD "")
      let (claims, outcome) := E.checkClaimSet parsed.claims aliases ranges
      (outcome, attachClaims segments claims)

def publish (options : ValidateOptions) (aliases : E.Aliases)
    (parsed : ParsedHistorySegmentOutput E) (segments : List (ValidatedHistorySegment E))
    (lastNewEnd : Nat) (discardedLast : Bool) : ValidatedChunk E :=
  let persistedCount := segments.length
  let citable := segments.head?.bind fun first =>
    segments.getLast?.map fun last => (first.startMessage, last.endMessage)
  let (extraction, facts) := extractFacts options aliases parsed citable
  let (claimsOutcome, historySegments) := extractClaims aliases parsed segments
  { historySegments, facts, extraction, claimsOutcome
    events := parsed.events.filter (keepEvent options persistedCount discardedLast)
    primerCandidates :=
      (parsed.primerCandidates.filter (keepCandidate options persistedCount discardedLast)).take 1
    userObservations :=
      parsed.userObservations.filter (keepCandidate options persistedCount discardedLast)
    unprocessedFrom := saturatingSucc lastNewEnd
    discardedLast }

def reject (label : String) : Option String → Except String Unit
  | some error => .error (label ++ error)
  | none => .ok ()

def invalidOutput : String := "HistorySummarizer returned invalid history_segment output: "

def emitSegments (parsed : ParsedHistorySegmentOutput E)
    (chunk : HistorySummarizerChunk E.Aliases) (options : ValidateOptions) :
    Except String (List (ValidatedHistorySegment E)) := do
  let presentOrdinals := chunkPresentOrdinals chunk
  let (segments, unprocessedFrom) :=
    healTerminalCompletedToolArc chunk.completedToolArcs presentOrdinals chunk.endIndex
      (healHistorySegmentGaps chunk.toolOnlyRanges presentOrdinals parsed.historySegments)
      parsed.unprocessedFrom
  let emitted ← (mapParsedHistorySegmentsToChunk segments chunk options.sequenceOffset).mapError
    (invalidOutput ++ ·)
  reject invalidOutput
    (validateParsedHistorySegments segments chunk.startIndex chunk.endIndex presentOrdinals
      unprocessedFrom)
  if segments.getLast?.any fun segment =>
      boundarySplitsCompletedToolArc (saturatingSucc segment.endMessage)
        chunk.completedToolArcs then
    .error "HistorySummarizer terminal boundary splits a completed tool invocation/result arc"
  else .ok emitted

def finish (parsed : ParsedHistorySegmentOutput E) (chunk : HistorySummarizerChunk E.Aliases)
    (prior : List MessageRange) (options : ValidateOptions)
    (emitted : List (ValidatedHistorySegment E)) : Except String (ValidatedChunk E) :=
  let discardedLast := discardsLast chunk options emitted
  let segments := if discardedLast then emitted.dropLast else emitted
  let offset := (prior.getLast?.map fun last => saturatingSucc last.2).getD chunk.startIndex
  let lastNewEnd := (segments.getLast?.map (·.endMessage)).getD 0
  if lastNewEnd < offset then
    .error ("no forward progress beyond raw message " ++ toString (offset - 1))
  else .ok (publish options chunk.aliases parsed segments lastNewEnd discardedLast)

def validateHistorySummarizerOutput
    (parse : String → Except String (ParsedHistorySegmentOutput E)) (text : String)
    (chunk : HistorySummarizerChunk E.Aliases) (prior : List MessageRange)
    (options : ValidateOptions) : Except String (ValidatedChunk E) := do
  reject "HistorySummarizer chunk coverage invalid: " (validateChunkCoverage chunk)
  reject "Existing history_segments are invalid: " (validateStoredHistorySegments prior)
  reject "" (validateChunkStart chunk.startIndex (chunkPresentOrdinals chunk) prior)
  let parsed ← parse text
  if parsed.historySegments.isEmpty then
    .error "HistorySummarizer returned no usable history_segments."
  else do
    let emitted ← emitSegments parsed chunk options
    finish parsed chunk prior options emitted

end Eidnara.Daemon.HistorySummarizer
