import Eidnara.Daemon.Selection.Items
import Eidnara.Lib.Checked
import Eidnara.Lib.Crossings
import Eidnara.Lib.EntryMap
import Eidnara.Lib.Numbers
import Eidnara.Lib.StableGroups
import Mathlib.Data.Prod.Lex

/-!
# The compactable head and the protected tail

`resolveProtectedTailBoundary` walks back from the newest message until the tail holds enough
tokens and then moves the boundary so that no tool call is separated from its result.  Token
counts and thresholds are arbitrary numbers; an index out of bounds or an overflow gives nothing.
-/

namespace Eidnara.Daemon.Boundary

open Lib Selection

inductive Role
  | user
  | assistant
  | system
  | other (value : String)
  deriving DecidableEq, Repr

structure BoundaryBlock (Input : Type) where
  kind : SelKind Input
  providerExecuted : Bool
  arcId : Option String
  original : String
  originalTokenCount : Nat
  ignored : Bool

structure BoundaryMsg (Input : Type) where
  messageOrdinal : Nat
  role : Role
  blocks : List (BoundaryBlock Input)

structure BoundaryContext (F : Type) where
  contextLimit : F
  executeThresholdPercentage : F
  usagePercentage : F
  usageInputTokens : F
  lastHistorySegmentEndOrdinal : Option Nat
  priorBoundaryOrdinal : Nat
  publicationFloorActive : Bool
  emergencyTailScale : Option F
  triggerBudget : Option F
  foldIsOnlyReclaim : Bool

structure BoundaryResolution (F : Type) where
  protectedStartOrdinal : Nat
  eligibleHeadStart : Nat
  eligibleHeadEnd : Nat
  nTokens : F
  flooredByLivePrompt : Bool
  fencedByOpenArc : Bool
  trueRawEligibleTokens : F
  oversizeAtomicUnit : Bool
  rawMessageCount : Nat
  boundaryReason : String

variable {Input F : Type} [Numbers F]

/-! ## Thresholds -/

def deriveTriggerBudget (contextLimit executeThresholdPercentage : F) : F :=
  if !Numbers.isFinite contextLimit || Numbers.le contextLimit 0.0 then 5000.0
  else
    let thresholdFraction := Numbers.max executeThresholdPercentage 0.0 / 100.0
    let usable := contextLimit * thresholdFraction
    Numbers.clamp 5000.0 50000.0 (Numbers.round (usable * 0.05))

def clampPercentage (value : F) : F :=
  if !Numbers.isFinite value then 0.0 else Numbers.clamp 0.0 100.0 value

/-- The final unscaled target of `derive_protected_tail_token_target`. -/
def protectedTailTokenTarget (ctx : BoundaryContext F) : F :=
  let safeContextLimit :=
    if Numbers.isFinite ctx.contextLimit && Numbers.lt 0.0 ctx.contextLimit then ctx.contextLimit
    else 128000.0
  let safeThreshold :=
    if Numbers.isFinite ctx.executeThresholdPercentage then
      Numbers.max ctx.executeThresholdPercentage 0.0
    else 65.0
  let usable := Numbers.max (Numbers.round ((safeContextLimit * safeThreshold) / 100.0)) 1.0
  let usage := clampPercentage ctx.usagePercentage
  let triggerBudget := ctx.triggerBudget.getD (deriveTriggerBudget safeContextLimit safeThreshold)
  let reserve := Numbers.max 1000.0 (Numbers.round (usable * 0.02))
  let rawN := Numbers.round (usable * 0.3 * (1.0 - usage / 100.0))
  let floorN := Numbers.min 12000.0 (Numbers.max 2000.0 (Numbers.round (usable * 0.08)))
  let headroom := Numbers.min (triggerBudget + reserve) (Numbers.floor (usable * 0.5))
  let ceilingN :=
    Numbers.max 1.0
      (Numbers.min (Numbers.min 96000.0 (Numbers.floor (usable * 0.4))) (usable - headroom))
  let effectiveFloor := Numbers.min floorN ceilingN
  Numbers.min ceilingN (Numbers.max effectiveFloor rawN)

def scaledTarget (ctx : BoundaryContext F) : F :=
  match ctx.emergencyTailScale with
  | some scale => Numbers.max (Numbers.floor (protectedTailTokenTarget ctx * scale)) 1.0
  | none => protectedTailTokenTarget ctx

def forceMaterializePercentage (executeThresholdPercentage : F) : F :=
  let threshold :=
    if Numbers.isFinite executeThresholdPercentage then Numbers.min executeThresholdPercentage 90.0
    else 65.0
  Numbers.max 85.0 (threshold + 2.0)

def selectPerRunCap (usagePercentage n contextLimit executeThresholdPercentage : F) : F :=
  let usable :=
    Numbers.max (Numbers.round ((contextLimit * executeThresholdPercentage) / 100.0)) 1.0
  if Numbers.le 95.0 usagePercentage then
    Numbers.min 750000.0
      (Numbers.max (4.0 * n) (Numbers.min (Numbers.round (0.5 * usable)) 250000.0))
  else if Numbers.le 80.0 usagePercentage then
    Numbers.min 500000.0
      (Numbers.max (3.0 * n) (Numbers.min (Numbers.round (0.35 * usable)) 150000.0))
  else
    Numbers.min 250000.0
      (Numbers.max (2.0 * n) (Numbers.min (Numbers.round (0.25 * usable)) 100000.0))

/-! ## The token index -/

/-- Distinct ordinals in ascending order, with the tokens before each of them and in all. -/
structure TokenIndex (F : Type) where
  ordinals : List Nat
  totals : List F
  length_totals : totals.length = ordinals.length + 1

namespace TokenIndex

def messageTotal (message : BoundaryMsg Input) : F :=
  message.blocks.foldl (fun total block => total + Numbers.ofCount block.originalTokenCount) 0.0

/-- The ordinals and running totals, newest first, with one more message. -/
def extend (entries : List (Nat × F)) (ordinal : Nat) (total : F) : List (Nat × F) :=
  match entries with
  | (last, sum) :: rest =>
    if last = ordinal then (last, sum + total) :: rest else (ordinal, sum + total) :: entries
  | [] => [(ordinal, 0.0 + total)]

def new (messages : List (BoundaryMsg Input)) : TokenIndex F :=
  let entries :=
    (sortByKey (·.messageOrdinal) messages).foldl
      (fun entries message => extend entries message.messageOrdinal (messageTotal message)) []
  { ordinals := entries.reverse.map Prod.fst
    totals := 0.0 :: entries.reverse.map Prod.snd
    length_totals := by simp }

variable (index : TokenIndex F)

def firstOrdinal : Nat := index.ordinals.head?.getD 1

def lastOrdinal : Nat := index.ordinals.getLast?.getD 0

def terminalOrdinal : Nat := (index.ordinals.getLast?.map saturatingSucc).getD 1

def totalTokens : F := index.totals.getLast?.getD 0.0

/-- `partition_point(|candidate| candidate < ordinal)`. -/
def lowerBound (ordinal : Nat) : Nat := (index.ordinals.takeWhile (· < ordinal)).length

def tokenForOrdinal (ordinal : Nat) : Option F :=
  match index.ordinals.findIdx? (· = ordinal) with
  | some i => do
    let after ← index.totals[i + 1]?
    let before ← index.totals[i]?
    some (after - before)
  | none => some 0.0

def exclusiveEndForPrefixIndex (i : Nat) : Option Nat :=
  if i = 0 then some index.firstOrdinal else (index.ordinals[i - 1]?).map saturatingSucc

def clampOrdinal (ordinal : Nat) : Nat :=
  if index.ordinals.isEmpty then ordinal
  else min (max ordinal index.firstOrdinal) index.terminalOrdinal

def suffixTokensFromOrdinal (ordinal : Nat) : Option F :=
  if index.ordinals.isEmpty then some 0.0
  else if ordinal ≤ index.firstOrdinal then some index.totalTokens
  else if ordinal ≥ index.terminalOrdinal then some 0.0
  else (index.totals[index.lowerBound ordinal]?).map (index.totalTokens - ·)

def rangeTokens (startInclusive endExclusive : Nat) : Option F :=
  if index.ordinals.isEmpty || endExclusive ≤ startInclusive then some 0.0
  else
    let first := max startInclusive index.firstOrdinal
    let last := min (max endExclusive first) index.terminalOrdinal
    if last ≤ first then some 0.0
    else
      let startIndex := index.lowerBound first
      let endIndex := index.lowerBound last
      if endIndex ≤ startIndex then some 0.0
      else do
        let after ← index.totals[endIndex]?
        let before ← index.totals[startIndex]?
        some (after - before)

/-- The binary search of the walks, from `lo` to `hi`, for the last total up to `cut`. -/
def search (cut : F) : Nat → Nat → Nat → Nat → Option Nat
  | 0, _, _, _ => none
  | fuel + 1, lo, hi, best =>
    if lo ≤ hi then
      let mid := (lo + hi) / 2
      match index.totals[mid]? with
      | none => none
      | some total =>
        if Numbers.le total cut then search cut fuel (mid + 1) hi mid
        else if mid = 0 then some best
        else search cut fuel lo (mid - 1) best
    else some best

def findSuffixStartForTokens (tokens : F) : Option Nat :=
  if index.ordinals.isEmpty then some 1
  else if !Numbers.isFinite tokens || Numbers.le tokens 0.0 then some index.terminalOrdinal
  else
    let target := Numbers.max (Numbers.floor tokens) 0.0
    if Numbers.lt index.totalTokens target then some index.firstOrdinal
    else
      let last := index.totals.length - 1
      (index.search (index.totalTokens - target) (last + 2) 0 last 0).map fun best =>
        (index.ordinals[best]?).getD index.terminalOrdinal

def findHeadEndForCap (startInclusive endExclusive : Nat) (capTokens : F) : Option Nat :=
  if index.ordinals.isEmpty then some startInclusive
  else
    let first := min (max startInclusive index.firstOrdinal) index.terminalOrdinal
    let last := min (max endExclusive first) index.terminalOrdinal
    if !Numbers.isFinite capTokens || Numbers.le capTokens 0.0 then some first
    else
      let startIndex := index.lowerBound first
      let endIndex := index.lowerBound last
      if startIndex ≥ endIndex then some first
      else do
        let before ← index.totals[startIndex]?
        let best ← index.search (before + Numbers.floor capTokens) (endIndex + 2) startIndex
          endIndex
          startIndex
        if best = startIndex then
          (index.ordinals[startIndex]?).map fun ordinal => min (saturatingSucc ordinal) last
        else (index.exclusiveEndForPrefixIndex best).map (min · last)

end TokenIndex

/-! ## Tool arcs -/

structure ToolArc where
  invOrdinal : Nat
  resOrdinal : Option Nat
  deriving DecidableEq, Repr

/-- The call and the result ordinals of each arc id. -/
abbrev PartialArcs := EntryMap String (List Nat × List Nat)

def collectBlock (ordinal : Nat) (arcs : PartialArcs) (block : BoundaryBlock Input) : PartialArcs :=
  if block.providerExecuted then arcs
  else match block.arcId with
    | none => arcs
    | some arcId =>
      let (inv, res) := (arcs.find arcId).getD ([], [])
      match block.kind with
      | .toolCall .. => arcs.insert arcId (inv ++ [ordinal], res)
      | .toolResult .. => arcs.insert arcId (inv, res ++ [ordinal])
      | _ => arcs.insert arcId (inv, res)

def collectMessage (arcs : PartialArcs) (message : BoundaryMsg Input) : PartialArcs :=
  message.blocks.foldl (collectBlock message.messageOrdinal) arcs

/-- Each call takes the first remaining result at or after it. -/
def pairArcs : List Nat → List Nat → List ToolArc
  | [], _ => []
  | inv :: rest, res =>
    match res.find? (inv ≤ ·) with
    | some r => ⟨inv, some r⟩ :: pairArcs rest (res.erase r)
    | none => ⟨inv, none⟩ :: pairArcs rest res

def buildToolArcs (messages : List (BoundaryMsg Input)) : List ToolArc :=
  sortByKey (fun arc => toLex (arc.invOrdinal, arc.resOrdinal.getD u64Max)) <|
    (messages.foldl collectMessage .empty).entries.flatMap fun (_, inv, res) =>
      pairArcs (sortByKey id inv) (sortByKey id res)

def completedArcs (arcs : List ToolArc) : List Span :=
  arcs.filterMap fun arc => arc.resOrdinal.map fun result => (arc.invOrdinal, result)

def newestMessageProtectedFloor (arcs : List ToolArc) (last : Nat) : Nat :=
  ((arcs.filter fun arc => arc.invOrdinal = last || arc.resOrdinal = some last).map
    (·.invOrdinal)).min?.getD last

/-! ## Fences -/

def fenceBoundaryForCompletedToolArcs (candidate : Nat) (arcs : List ToolArc) (floor : Nat) : Nat :=
  let completed := completedArcs arcs
  let component := completed.filter (crosses · candidate)
  if component.isEmpty then candidate
  else
    let component := expand candidate completed (completed.length + 1) component
    let minInvocation := leastStart candidate component
    let maxResult := greatestEnd candidate component
    -- The component starts below the floor, so the boundary moves past its last result.
    if minInvocation < floor then saturatingSucc maxResult else minInvocation

def firstOpenArc (arcs : List ToolArc) (boundary floor cutoff : Nat) : Option ToolArc :=
  arcs.find? fun arc =>
    arc.resOrdinal.isNone && cutoff ≤ arc.invOrdinal &&
      (floor ≤ arc.invOrdinal || boundary ≤ arc.invOrdinal)

/-- The fenced boundary, and whether an unanswered call fenced it. -/
def fenceBoundaryForToolArcs (candidate : Nat) (arcs : List ToolArc) (floor cutoff : Nat) :
    Nat × Bool :=
  let boundary := fenceBoundaryForCompletedToolArcs candidate arcs floor
  let openArc := firstOpenArc arcs boundary floor cutoff
  let boundary := (openArc.map (·.invOrdinal)).getD boundary
  (fenceBoundaryForCompletedToolArcs boundary arcs floor, openArc.isSome)

/-! ## Snapping -/

def hasMeaningfulUserText (meaningful : String → Bool) (blocks : List (BoundaryBlock Input)) :
    Bool :=
  blocks.any fun block =>
    !block.ignored && (match block.kind with | .text => true | _ => false) &&
      meaningful block.original

def isSemanticBoundaryCandidate (meaningful : String → Bool) (message : BoundaryMsg Input) : Bool :=
  (message.role = .user && hasMeaningfulUserText meaningful message.blocks) ||
    message.blocks.any (·.kind.isTool)

def snapTarget (meaningful : String → Bool) (ordered : List (BoundaryMsg Input))
    (candidate floor : Nat) : Nat :=
  (ordered.takeWhile (·.messageOrdinal ≤ candidate)).foldl
    (fun snapped message =>
      if message.messageOrdinal < floor then snapped
      else if isSemanticBoundaryCandidate meaningful message then message.messageOrdinal
      else snapped)
    candidate

def semanticSnapBoundary (meaningful : String → Bool) (messages : List (BoundaryMsg Input))
    (index : TokenIndex F) (candidate : Nat) (scaledN : F) (floor : Nat) : Option Nat :=
  let ordered := sortByKey (·.messageOrdinal) messages
  let snapped := snapTarget meaningful ordered candidate floor
  if snapped = candidate then some candidate
  else do
    let fromSnapped ← index.suffixTokensFromOrdinal snapped
    let fromCandidate ← index.suffixTokensFromOrdinal candidate
    if Numbers.lt (Numbers.min (Numbers.round (1.5 * scaledN)) 48000.0)
        (fromSnapped - fromCandidate) then
      some candidate
    else do
      let tokens ← index.tokenForOrdinal snapped
      let hugeUser := ordered.any fun message =>
        message.messageOrdinal = snapped && message.role = .user &&
          Numbers.lt (Numbers.max (2.0 * scaledN) 64000.0) tokens
      some (if hugeUser then candidate else snapped)

/-! ## The head of one run -/

structure HeadCapResult where
  eligibleEndOrdinal : Nat
  oversizeAtomicUnit : Bool
  fencedByOpenArc : Bool

def endAtOpenArc (offset cutoff : Nat) (state : Nat × Bool) (arc : ToolArc) : Nat × Bool :=
  if arc.resOrdinal.isSome then state
  else if cutoff ≤ arc.invOrdinal ∧ offset ≤ arc.invOrdinal ∧ arc.invOrdinal < state.1 then
    (min state.1 arc.invOrdinal, true)
  else state

def endAtOpenArcs (offset cutoff : Nat) (arcs : List ToolArc) (last : Nat) : Nat × Bool :=
  arcs.foldl (endAtOpenArc offset cutoff) (last, false)

def applyHeadCap (index : TokenIndex F) (protectedTailStart offset : Nat) (arcs : List ToolArc)
    (capTokens : F) (cutoff : Nat) : Option HeadCapResult :=
  if offset ≥ protectedTailStart then some ⟨offset, false, false⟩
  else do
    let last ← index.findHeadEndForCap offset protectedTailStart capTokens
    let afterOffset ← checkedAdd 64 offset 1
    let tokens ← index.tokenForOrdinal offset
    let oversize := last = afterOffset && Numbers.lt capTokens tokens
    let last := fenceBoundaryForCompletedToolArcs last arcs offset
    let (last, fenced) := endAtOpenArcs offset cutoff arcs last
    let last := fenceBoundaryForCompletedToolArcs last arcs offset
    if last ≤ offset then some ⟨offset, oversize, fenced⟩
    else some ⟨min last protectedTailStart, oversize, fenced⟩

/-! ## The boundary -/

/-- Where new history starts: after the last segment, or at the first live message. -/
def historySegmentOffset (lastEnd : Option Nat) (messages : List (BoundaryMsg Input)) : Nat :=
  match lastEnd with
  | some last => saturatingSucc last
  | none => ((messages.map (·.messageOrdinal)).min?).getD 1

/-- The boundary of the size walk, which also separates recent unanswered calls from old ones. -/
def sizeWalkCutoff (messages : List (BoundaryMsg Input)) (ctx : BoundaryContext F) : Option Nat :=
  (TokenIndex.new messages : TokenIndex F).findSuffixStartForTokens (scaledTarget ctx)

/-- The size walk, with the exception for a huge message. -/
def sizeWalk (index : TokenIndex F) (cutoff : Nat) (scaledN : F) : Option (Nat × String) := do
  let reason :=
    if cutoff = index.firstOrdinal then "whole-session-smaller-than-tail" else "size-walk"
  let tokens ← index.tokenForOrdinal cutoff
  if cutoff < index.terminalOrdinal && Numbers.lt (Numbers.max (2.0 * scaledN) 64000.0) tokens &&
      cutoff < index.lastOrdinal then do
    let boundary ← checkedAdd 64 cutoff 1
    some (boundary, "huge-message-exception")
  else some (cutoff, reason)

def lastMeaningfulUser (meaningful : String → Bool) (messages : List (BoundaryMsg Input)) :
    Option Nat :=
  (messages.reverse.find? fun message =>
    message.role = .user && hasMeaningfulUserText meaningful message.blocks).map (·.messageOrdinal)

/-- The live prompt stays protected below the force band. -/
def floorAtLivePrompt (meaningful : String → Bool) (messages : List (BoundaryMsg Input))
    (ctx : BoundaryContext F) (offset start : Nat) : Nat × Bool :=
  if ctx.emergencyTailScale.isNone &&
      Numbers.lt (clampPercentage ctx.usagePercentage)
        (forceMaterializePercentage ctx.executeThresholdPercentage) then
    match lastMeaningfulUser meaningful messages with
    | some user => if offset ≤ user ∧ user < start then (user, true) else (start, false)
    | none => (start, false)
  else (start, false)

/-- A head of few tokens is not worth a run. -/
def applyHysteresis (index : TokenIndex F) (offset start : Nat) : Option Nat :=
  if offset < start then
    (index.rangeTokens offset start).map fun tokens =>
      if Numbers.le tokens 256.0 then offset else start
  else some start

def protectNewest (ctx : BoundaryContext F) (index : TokenIndex F) (arcs : List ToolArc)
    (offset start : Nat) : Nat :=
  if ctx.foldIsOnlyReclaim then
    index.clampOrdinal (max (min start (newestMessageProtectedFloor arcs index.lastOrdinal)) offset)
  else start

/-- The protected start before its final fence, with the flags set on the way. -/
def unfencedStart (meaningful : String → Bool) (messages : List (BoundaryMsg Input))
    (ctx : BoundaryContext F) (index : TokenIndex F) (arcs : List ToolArc) (offset cutoff : Nat) :
    Option (Nat × Bool × Bool × String) := do
  let scaledN := scaledTarget ctx
  let (boundary, reason) ← sizeWalk index cutoff scaledN
  let (boundary, firstOpen) := fenceBoundaryForToolArcs boundary arcs offset cutoff
  let snapped ← semanticSnapBoundary meaningful messages index boundary scaledN offset
  let reason := if snapped ≠ boundary then "semantic-snap" else reason
  let (boundary, secondOpen) := fenceBoundaryForToolArcs snapped arcs offset cutoff
  let runtimeFloor :=
    if ctx.publicationFloorActive then max offset ctx.priorBoundaryOrdinal else offset
  let (start, floored) :=
    floorAtLivePrompt meaningful messages ctx offset (max boundary runtimeFloor)
  let start ← applyHysteresis index offset start
  let start := protectNewest ctx index arcs offset (index.clampOrdinal start)
  some (start, floored, firstOpen || secondOpen, reason)

def resolveProtectedTailBoundary (meaningful : String → Bool) (messages : List (BoundaryMsg Input))
    (ctx : BoundaryContext F) : Option (BoundaryResolution F) :=
  let index : TokenIndex F := TokenIndex.new messages
  let rawMessageCount := index.ordinals.length
  let offset := historySegmentOffset ctx.lastHistorySegmentEndOrdinal messages
  if rawMessageCount = 0 then
    let usageInputTokens := Numbers.round (Numbers.max ctx.usageInputTokens 0.0)
    some
      { protectedStartOrdinal := 1, eligibleHeadStart := offset, eligibleHeadEnd := offset
        nTokens := 0.0, flooredByLivePrompt := false, fencedByOpenArc := false
        trueRawEligibleTokens := 0.0, oversizeAtomicUnit := false, rawMessageCount
        boundaryReason := "empty-session:" ++ Numbers.digits usageInputTokens }
  else do
    let arcs := buildToolArcs messages
    let scaledN := scaledTarget ctx
    let cutoff ← sizeWalkCutoff messages ctx
    let (start, floored, fenced, reason) ←
      unfencedStart meaningful messages ctx index arcs offset cutoff
    -- Pairing is the final invariant, so completed arcs fence once more.
    let start := fenceBoundaryForCompletedToolArcs start arcs offset
    let cap :=
      selectPerRunCap (clampPercentage ctx.usagePercentage) scaledN ctx.contextLimit
        ctx.executeThresholdPercentage
    let head ← applyHeadCap index start offset arcs cap cutoff
    let eligible ← index.rangeTokens offset start
    some
      { protectedStartOrdinal := start, eligibleHeadStart := offset
        eligibleHeadEnd := head.eligibleEndOrdinal, nTokens := scaledN
        flooredByLivePrompt := floored, fencedByOpenArc := fenced || head.fencedByOpenArc
        trueRawEligibleTokens := eligible, oversizeAtomicUnit := head.oversizeAtomicUnit
        rawMessageCount, boundaryReason := reason }

end Eidnara.Daemon.Boundary
