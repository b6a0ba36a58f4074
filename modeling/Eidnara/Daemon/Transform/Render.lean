import Eidnara.CacheStability.Core
import Eidnara.Daemon.Selection.Select
import Eidnara.Daemon.Wire.Project

/-!
# Rendering the tail with frozen reductions

The decisions of a pass are frozen as units under the key of the block they are about.  The
renderer serves each live message with its reduced blocks rewritten and its surface strips
applied, takes out the tool blocks whose provider call id is dropped in full, and leaves out
messages that become empty.  Exempt messages are served as they came.  In the end a provider call
id is served for its first call only.

There is no tag overlay, terse compression or todo list, and no message has a decision about
merged reasoning or trailing blanks.
-/

namespace Eidnara.Daemon.Transform

open CacheStability (FrozenUnit)
open Lib Selection Wire

variable {J : Type}

/-! ## From blocks to selection items -/

def selMessageRole (role : String) : SelMessageRole :=
  if role = "assistant" then .assistant else if role = "system" then .system else .nonAssistant

def selKind : BlockKind J → SelKind J
  | .toolCall _ name input _ => .toolCall name input
  | .toolResult _ toolName _ _ => .toolResult toolName
  | .reasoning .. => .reasoning
  | .text .. => .text
  | .redactedReasoning .. => .redactedReasoning
  | .media .. => .media
  | .opaqueBlock .. => .opaqueBlock

def selItemFromFlat (tagTokens : String → Option Nat) (block : FlatBlock J) : SelItem J :=
  { id := block.id
    ordinal := block.ordinal
    messageRole := selMessageRole block.role
    kind := selKind block.wire.kind
    providerExecuted := block.providerExecuted
    byteSize := block.bytes.utf8ByteSize
    tokenCount := tagTokens block.id
    arcId := block.arcId }

def isTail (ordinal : Nat) (coverage : Option Nat) : Bool := coverage.all (· < ordinal)

def tailSelItems (tagTokens : String → Option Nat) (coverage : Option Nat)
    (blocks : List (FlatBlock J)) : List (SelItem J) :=
  (blocks.filter fun block => !block.synthetic && isTail block.ordinal coverage).map
    (selItemFromFlat tagTokens)

/-! ## Frozen reductions -/

def redKey (target : String) : String := "red:" ++ target

def redUnit (decision : ReductionDecision) : FrozenUnit :=
  { key := redKey decision.targetId
    kind := decision.kind.asStr
    frozenPayload := decision.payload
    durabilityClass := .lineage
    resetRule := "" }

def redByBlockId (units : List FrozenUnit) (id : String) : Option FrozenUnit :=
  units.find? (·.key = redKey id)

def frozenKind (units : List FrozenUnit) (id : String) : Option String :=
  (redByBlockId units id).map (·.kind)

/-! ## The renderer -/

structure OutputSettings where
  outputCoverage : Option Nat
  /-- Covered messages that are served all the same. -/
  keptCoveredMids : List String
  mutationExemptMid : Option String
  lineageAnchorMid : Option String
  rendererTransitionActive : Bool
  providerId : Option String
  tagNumbers : List (String × Nat)
  reasoningWatermark : Nat
  reasoningMutationExemptMid : Option String

namespace OutputSettings

variable (settings : OutputSettings)

def isOutput (mid : String) (ordinal : Nat) : Bool :=
  isTail ordinal settings.outputCoverage || settings.lineageAnchorMid = some mid ||
    mid ∈ settings.keptCoveredMids

def mutationExempt (mid : String) : Bool :=
  settings.mutationExemptMid = some mid || settings.lineageAnchorMid = some mid

def reasoningMutationExempt (mid : String) : Bool :=
  settings.reasoningMutationExemptMid = some mid || settings.lineageAnchorMid = some mid

def requestAcceptsEmptyContent : Bool := settings.providerId = some "anthropic"

def providerSentinelText : String :=
  if settings.requestAcceptsEmptyContent then "" else "[dropped]"

/-- An assistant message up to the reasoning watermark, open to changes of its reasoning. -/
def aged (mid role : String) : Bool :=
  let tag := (settings.tagNumbers.lookup mid).getD 0
  !settings.reasoningMutationExempt mid && role = "assistant" && 0 < tag &&
    tag ≤ settings.reasoningWatermark

end OutputSettings

/-- What the renderer asks of JSON values and of texts. -/
structure Surface (J : Type) where
  /-- The input of a reduced call. -/
  callInput : String → Option String → J
  get : J → String → Option J
  asStr : J → Option String
  asBool : J → Option Bool
  inlineThinkingReplacement : String → String
  /-- The extras of a bare block. -/
  bareExtras : J

/-- The arcs of assistant messages that would keep only reasoning without them. -/
def projectionReasoningIneligibleArcIds (blocks : List (FlatBlock J)) : List String :=
  exposedArcIds (EntryMap.collect (fun block => some block.mid)
    (fun message block => ReasoningMessageShape.add message (selItemFromFlat (fun _ => none) block))
    (blocks.filter (·.role = "assistant")))

def callKindById (units : List FrozenUnit) (blocks : List (FlatBlock J)) (id : String) :
    Option String :=
  let call := blocks.find? fun block =>
    block.wire.kind.isToolCall && block.wire.kind.toolCallId = some id
  call.bind fun block => frozenKind units block.id

def fullDropToolId (units : List FrozenUnit) (blocks : List (FlatBlock J))
    (ineligible : List String) (block : FlatBlock J) : Option String :=
  match block.wire.kind.toolCallId with
  | none => none
  | some id =>
    if block.arcId.any (· ∈ ineligible) then none
    else if frozenKind units block.id ≠ some "drop" then none
    else if block.wire.kind.isToolCall then some id
    else if callKindById units blocks id = some "skeleton" ∨
        callKindById units blocks id = some "edit_marker" then none
    else some id

def fullDropToolIds (units : List FrozenUnit) (blocks : List (FlatBlock J))
    (ineligible : List String) : List String :=
  blocks.filterMap (fullDropToolId units blocks ineligible)

def reductionUnit (units : List FrozenUnit) (ineligible : List String) (block : FlatBlock J) :
    Option FrozenUnit :=
  if block.wire.kind.isReasoning || block.arcId.any (· ∈ ineligible) then none
  else (redByBlockId units block.id).filter (·.kind ≠ "image")

/-! ## Surface strips -/

/-- The strip unit of a message or of a block. -/
def stripUnit (units : List FrozenUnit) (kind target : String) : Option FrozenUnit :=
  units.find? (·.key = "strip:" ++ kind ++ ":" ++ target)

def isReduceBlock : BlockKind J → Bool
  | .toolCall _ name .. => name = "eidnara_reduce"
  | .toolResult _ toolName .. => toolName = "eidnara_reduce"
  | _ => false

def isStructuralNoise : BlockKind J → Bool
  | .opaqueBlock _ kind .. => kind ∈ ["meta", "step-start", "step-finish"]
  | .reasoning text _ => text = "[cleared]"
  | _ => false

def isMetadataBlock : BlockKind J → Bool
  | .opaqueBlock _ kind .. =>
    kind ∈ ["meta", "step-start", "step-finish", "snapshot", "patch", "agent", "retry", "subtask",
      "compaction"]
  | _ => false

def isTypedReasoning : BlockKind J → Bool
  | .reasoning .. => true
  | _ => false

namespace Surface

variable (surface : Surface J)

def isIgnoredBlock : BlockKind J → Bool
  | .opaqueBlock _ _ raw _ => (surface.get raw "ignored").bind surface.asBool = some true
  | _ => false

def hasMeaningfulContent (kind : BlockKind J) : Bool :=
  !(surface.isIgnoredBlock kind || isMetadataBlock kind) &&
    match kind with
    | .text text => text ≠ ""
    | .reasoning .. | .redactedReasoning .. => false
    | _ => true

def imageBlockIsLarge : BlockKind J → Bool
  | .media kind mediaType _ source =>
    kind = .image && mediaType.startsWith "image/" &&
      (surface.get source "type").bind surface.asStr = some "data_base64" &&
      ((surface.get source "data").bind surface.asStr).any fun data =>
        200 < data.utf8ByteSize + ("data:" ++ mediaType ++ ";base64,").utf8ByteSize
  | _ => false

end Surface

def imageUnit (units : List FrozenUnit) (id : String) : Bool :=
  units.any fun unit => unit.kind = "image" && unit.key = redKey id

/-- A message as it is served, each block with its index in the message it was rendered in. -/
structure ServedMessage (J : Type) where
  mid : String
  role : String
  content : List (WireBlock J × Nat)
  deriving DecidableEq, Repr

section

variable (surface : Surface J) (settings : OutputSettings) (units : List FrozenUnit)
  (blocks : List (FlatBlock J))

/-- What the strips turn a block into, if anything. -/
def strippedKind (mid role : String) (block : FlatBlock J) : Option (BlockKind J) :=
  let acceptsEmpty := settings.requestAcceptsEmptyContent
  let staleReduce := (stripUnit units "stale_reduce" mid).isSome
  let imageSeed := (stripUnit units "processed_image" mid).isSome
  match (stripUnit units "system_injected_block" block.id).filter fun _ =>
      !settings.reasoningMutationExempt mid with
  | some unit => some (.text unit.frozenPayload)
  | none =>
    if settings.aged mid role && acceptsEmpty && isTypedReasoning block.wire.kind then
      some (.reasoning "" none)
    else if acceptsEmpty && (staleReduce && isReduceBlock block.wire.kind ||
        imageSeed && surface.imageBlockIsLarge block.wire.kind || imageUnit units block.id ||
        isStructuralNoise block.wire.kind) then
      some (.text settings.providerSentinelText)
    else
      match block.wire.kind with
      | .text text =>
        if settings.aged mid role && surface.inlineThinkingReplacement text ≠ text then
          some (.text (surface.inlineThinkingReplacement text))
        else none
      | _ => none

def strippedBlock (mid role : String) (block : FlatBlock J) (wire : WireBlock J) : WireBlock J :=
  { wire with kind := (strippedKind surface settings units mid role block).getD wire.kind }

def updateBlocks (update : FlatBlock J → WireBlock J → WireBlock J)
    (messageBlocks : List (FlatBlock J)) (content : List (WireBlock J)) : List (WireBlock J) :=
  messageBlocks.foldl (fun content block => content.modify block.blockIndex (update block)) content

def applySurfaceStrips (message : IngressMessage J) (messageBlocks : List (FlatBlock J))
    (content : List (WireBlock J)) : List (WireBlock J) :=
  let sentinel : List (WireBlock J) := [⟨.text settings.providerSentinelText, surface.bareExtras⟩]
  if !settings.reasoningMutationExempt message.mid &&
      ((stripUnit units "placeholder" message.mid).isSome ||
        (stripUnit units "system_injected" message.mid).isSome) then
    sentinel
  else
    let touched := messageBlocks.any fun block =>
      block.blockIndex < content.length &&
        (strippedKind surface settings units message.mid message.role block).isSome
    let stripped := updateBlocks
      (strippedBlock surface settings units message.mid message.role) messageBlocks content
    if (stripUnit units "stale_reduce" message.mid).isSome && touched &&
        !stripped.any (surface.hasMeaningfulContent ·.kind) then
      sentinel
    else stripped

def removeFrozenHistoricalReasoning (message : IngressMessage J)
    (content : List (WireBlock J × Nat)) : List (WireBlock J × Nat) :=
  if settings.reasoningMutationExempt message.mid || message.role ≠ "assistant" ||
      (stripUnit units "reasoning_age" message.mid).isNone then content
  else content.filter (!·.1.kind.isReasoning)

def ineligibleArcs : List String :=
  if settings.rendererTransitionActive then projectionReasoningIneligibleArcIds blocks else []

def renderedBlock (ineligible : List String) (block : FlatBlock J) (wire : WireBlock J) :
    WireBlock J :=
  match reductionUnit units ineligible block with
  | some unit => reducedBlock surface.callInput block.wire unit.frozenPayload block.filePath
  | none => wire

def dropIndexes (fullDropIds : List String) (messageBlocks : List (FlatBlock J)) : List Nat :=
  (messageBlocks.filter fun block => block.wire.kind.toolCallId.any (· ∈ fullDropIds)).map
    (·.blockIndex)

def rebuiltContent (message : IngressMessage J) (messageBlocks : List (FlatBlock J)) :
    List (WireBlock J × Nat) :=
  if settings.mutationExempt message.mid || messageBlocks.isEmpty then message.content.zipIdx
  else
    let ineligible := ineligibleArcs settings blocks
    let fullDropIds := fullDropToolIds units blocks ineligible
    let content := updateBlocks (renderedBlock surface units ineligible) messageBlocks
      message.content
    (applySurfaceStrips surface settings units message messageBlocks content).zipIdx.filter
      fun entry => entry.2 ∉ dropIndexes fullDropIds messageBlocks

def renderContent (message : IngressMessage J) (messageBlocks : List (FlatBlock J)) :
    List (WireBlock J × Nat) :=
  removeFrozenHistoricalReasoning settings units message
    (rebuiltContent surface settings units blocks message messageBlocks)

/-- A message that came in with content and has none left is not served. -/
def renderMessage (message : IngressMessage J) : Option (ServedMessage J) :=
  let messageBlocks := blocks.filter (·.mid = message.mid)
  let content := renderContent surface settings units blocks message messageBlocks
  if content.isEmpty && !messageBlocks.isEmpty then none
  else some ⟨message.mid, message.role, content⟩

def renderTail (messages : List (IngressMessage J)) : List (ServedMessage J) :=
  (messages.filter fun message =>
    !message.synthetic && settings.isOutput message.mid message.ordinal).filterMap
      (renderMessage surface settings units blocks)

/-! ## One call per provider id -/

def blockPositions (messages : List (ServedMessage J)) : List (BlockKind J × Nat × Nat) :=
  messages.zipIdx.flatMap fun message =>
    message.1.content.zipIdx.map fun entry => (entry.1.1.kind, message.2, entry.2)

/-- The calls whose id was seen before them, with their positions. -/
def duplicateCalls : List String → List (BlockKind J × Nat × Nat) → List (String × Nat × Nat)
  | _, [] => []
  | seen, (.toolCall id .., position) :: rest =>
    if id ∈ seen then (id, position) :: duplicateCalls seen rest
    else duplicateCalls (id :: seen) rest
  | seen, _ :: rest => duplicateCalls seen rest

def duplicateToolUseLocations (messages : List (ServedMessage J)) : List (String × Nat × Nat) :=
  duplicateCalls [] (blockPositions messages)

/-- The results of a duplicate go with it where its message becomes empty. -/
def removeResults (positions : List (BlockKind J × Nat × Nat)) (remove : List (Nat × Nat))
    (duplicate : String × Nat × Nat) : List (Nat × Nat) :=
  let owner := duplicate.2.1
  if (positions.map Prod.snd).all fun position =>
      position.1 ≠ owner || remove.contains position then
    remove ++ (positions.filter fun entry => entry.2.1 = owner + 1 && entry.1.isToolResult &&
      entry.1.toolCallId = some duplicate.1).map Prod.snd
  else remove

def enforceUniqueToolUseIds (messages : List (ServedMessage J)) : List (ServedMessage J) :=
  let duplicates := duplicateToolUseLocations messages
  let remove := duplicates.foldl (removeResults (blockPositions messages)) (duplicates.map Prod.snd)
  messages.zipIdx.filterMap fun message =>
    if remove.any (·.1 = message.2) then
      let content := message.1.content.zipIdx.filter fun entry =>
        !remove.contains (message.2, entry.2)
      if content.isEmpty then none
      else some { message.1 with content := content.map Prod.fst }
    else some message.1

def buildOutput (messages : List (IngressMessage J)) : List (ServedMessage J) :=
  enforceUniqueToolUseIds (renderTail surface settings units blocks messages)

end

end Eidnara.Daemon.Transform
