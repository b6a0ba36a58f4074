import Eidnara.Daemon.Selection.Items
import Eidnara.Lib.Checked
import Eidnara.Lib.EntryMap
import Eidnara.Lib.Numbers
import Eidnara.Lib.StableGroups
import Mathlib.Data.Prod.Lex

/-!
# Choosing the blocks to reduce

The selectors pick tool arcs by supersession, age and pressure, and blocks by the agent's own
drops.  Each arc is then expanded to decisions about its blocks, and decisions about protected
blocks or about arcs that would leave reasoning alone are withdrawn.  Hash sets and maps are
lists and ordered maps: no result depends on their order.
-/

namespace Eidnara.Daemon.Selection

open Lib

inductive RedKind
  | drop
  | skeleton
  | editMarker
  deriving DecidableEq, Repr

def RedKind.asStr : RedKind → String
  | .drop => "drop"
  | .skeleton => "skeleton"
  | .editMarker => "edit_marker"

structure ReductionDecision where
  targetId : String
  kind : RedKind
  payload : String
  deriving DecidableEq, Repr

inductive PassClass
  | execute
  | emergencyForce
  | defer
  deriving DecidableEq, Repr

structure SelectionContext (F : Type) where
  passClass : PassClass
  currentTotalInputTokens : F
  ceilingTokens : F
  protectedCutoffOrdinal : Nat
  lastExecuteOrdinal : Nat
  schedulerPressureExecute : Bool
  priorInputSample : F
  hasPriorDrop : Bool
  agentDropIds : List String
  agentDropCommandIds : List (String × String)
  firstAppliedAgentDropIds : List String
  passAlreadyBusting : Bool
  supersessionRideAvailable : Bool
  tagWindowProtectedBlockIds : List String
  exemptMessageProtectedBlockIds : List String

structure SelectionConfig where
  smartDrops : Bool

variable {Input F : Type} [Numbers F]

def SelectionContext.blockIsProtected (ctx : SelectionContext F) (id : String) : Bool :=
  id ∈ ctx.tagWindowProtectedBlockIds || id ∈ ctx.exemptMessageProtectedBlockIds

/-! ## Arcs -/

structure ToolArc (Input : Type) where
  arcId : String
  name : String
  ordinal : Nat
  providerExecuted : Bool
  callInputs : List (String × Input)
  callBytes : Nat
  resultIds : List String
  resultBytes : Nat
  reclaimTokens : Option Nat
  reduced : Bool

namespace ToolArc

def start (arcId : String) : ToolArc Input :=
  { arcId, name := "", ordinal := u64Max, providerExecuted := false, callInputs := []
    callBytes := 0, resultIds := [], resultBytes := 0, reclaimTokens := none, reduced := false }

def reclaimBytes (arc : ToolArc Input) : Nat := arc.callBytes + arc.resultBytes

def input (arc : ToolArc Input) : Option Input := arc.callInputs.head?.map Prod.snd

def addKind (arc : ToolArc Input) (item : SelItem Input) : ToolArc Input :=
  match item.kind with
  | .toolCall name input =>
    { arc with
      name
      callInputs := arc.callInputs ++ [(item.id, input)]
      callBytes := arc.callBytes + item.byteSize
      providerExecuted := item.providerExecuted }
  | .toolResult toolName =>
    { arc with
      name := if arc.name.isEmpty then toolName else arc.name
      resultIds := arc.resultIds ++ [item.id]
      resultBytes := arc.resultBytes + item.byteSize
      providerExecuted := arc.providerExecuted || item.providerExecuted }
  | _ => arc

def add (frozen : List String) (arcId : String) (arc : Option (ToolArc Input))
    (item : SelItem Input) : ToolArc Input :=
  let arc := arc.getD (start arcId)
  addKind
    { arc with
      ordinal := min arc.ordinal item.ordinal
      reclaimTokens := match item.tokenCount with
        | some tokens => some (min (arc.reclaimTokens.getD 0 + tokens) u64Max)
        | none => arc.reclaimTokens
      reduced := arc.reduced || item.id ∈ frozen }
    item

def key (arc : ToolArc Input) : Nat ×ₗ String := toLex (arc.ordinal, arc.arcId)

end ToolArc

def arcMap (items : List (SelItem Input)) (frozen : List String) :
    EntryMap String (ToolArc Input) :=
  EntryMap.collect SelItem.arcId
    (fun arc item => ToolArc.add frozen (item.arcId.getD "") arc item) items

def groupArcs (items : List (SelItem Input)) (frozen : List String) : List (ToolArc Input) :=
  sortByKey ToolArc.key ((arcMap items frozen).entries.map Prod.snd)

/-- Arc ids are distinct, so this is the order by descending ordinal and id. -/
def newestFirst (arcs : List (ToolArc Input)) : List (ToolArc Input) :=
  (sortByKey ToolArc.key arcs).reverse

/-! ## Arcs whose removal exposes reasoning -/

structure MessageShape (Input : Type) where
  mid : String
  ordinal : Nat
  role : SelMessageRole
  hasReasoning : Bool
  items : List (SelItem Input)

namespace MessageShape

def add (mid : String) (message : Option (MessageShape Input)) (item : SelItem Input) :
    MessageShape Input :=
  let message := message.getD ⟨mid, item.ordinal, item.messageRole, false, []⟩
  { message with
    ordinal := min message.ordinal item.ordinal
    hasReasoning := message.hasReasoning || item.kind.isReasoning
    items := message.items ++ [item] }

def fullyRemovedByArc (message : MessageShape Input) : Option String :=
  match message.items.head?.bind (·.arcId) with
  | none => none
  | some arcId =>
    if message.items.all fun item => item.arcId = some arcId && item.kind.isTool then some arcId
    else none

def isResultSeparator (message : MessageShape Input) : Bool :=
  message.role = .nonAssistant && message.items.any (·.kind.isToolResult)

def key (message : MessageShape Input) : Nat ×ₗ String := toLex (message.ordinal, message.mid)

end MessageShape

def messageMap (items : List (SelItem Input)) : EntryMap String (MessageShape Input) :=
  EntryMap.collect itemMessageId
    (fun message item => MessageShape.add ((itemMessageId item).getD "") message item) items

def messageShapes (items : List (SelItem Input)) : List (MessageShape Input) :=
  sortByKey MessageShape.key ((messageMap items).entries.map Prod.snd)

/-- The positions of the messages that only the arc's blocks make up. -/
def removableIndexes (messages : List (MessageShape Input)) (arcId : String) : List Nat :=
  (List.range messages.length).filter fun i =>
    (messages[i]?).any fun message => message.fullyRemovedByArc = some arcId

/-- Removing the run of messages would join two assistant messages, one of them with reasoning. -/
def hazardousRun (messages : List (MessageShape Input)) (run : List Nat) : Bool :=
  match run.head?, run.getLast? with
  | some first, some last =>
    if first = 0 then false
    else match messages[first - 1]?, messages[last + 1]? with
      | some left, some right =>
        (run.any fun i => (messages[i]?).any MessageShape.isResultSeparator) &&
          left.role = .assistant && right.role = .assistant &&
          (left.hasReasoning || right.hasReasoning)
      | _, _ => false
  | _, _ => false

def reasoningAdjacencyCollapseArcIds (items : List (SelItem Input)) : List String :=
  let messages := messageShapes items
  let arcIds := (messages.filterMap (·.fullyRemovedByArc)).dedup
  arcIds.filter fun arcId =>
    ((removableIndexes messages arcId).splitBy fun left right => right = left + 1).any
      (hazardousRun messages)

structure ReasoningMessageShape where
  hasReasoning : Bool
  hasDurableNonToolSibling : Bool
  toolArcIds : List String

namespace ReasoningMessageShape

def add (message : Option ReasoningMessageShape) (item : SelItem Input) : ReasoningMessageShape :=
  let message := message.getD ⟨false, false, []⟩
  match item.kind with
  | .reasoning | .redactedReasoning => { message with hasReasoning := true }
  | .toolCall .. | .toolResult .. =>
    if item.providerExecuted then { message with hasDurableNonToolSibling := true }
    else match item.arcId with
      | some arcId => { message with toolArcIds := message.toolArcIds ++ [arcId] }
      | none => { message with hasDurableNonToolSibling := true }
  | .opaqueBlock => message
  | .text | .media => { message with hasDurableNonToolSibling := true }

end ReasoningMessageShape

/-- The arcs of messages that would keep only reasoning without them. -/
def exposedArcIds (messages : EntryMap String ReasoningMessageShape) : List String :=
  (messages.entries.map Prod.snd).flatMap fun message =>
    if message.hasReasoning && !message.hasDurableNonToolSibling then message.toolArcIds else []

def reasoningIneligibleArcIds (items : List (SelItem Input)) : List String :=
  exposedArcIds (EntryMap.collect itemMessageId ReasoningMessageShape.add items)

/-! ## The selectors -/

inductive ArcShape
  | skeleton
  | fullDrop
  | editMarker
  deriving DecidableEq, Repr

def droppedPlaceholder : String := "[dropped]"

def todowriteKeep : Nat := 1

def eidnaraReduceKeep : Nat := 3

def ageReclaimMinTokens : Nat := 250

def recentToolSkeletonWindow : Nat := 20

variable (vocabulary : Vocabulary Input)

def newestEidnaraReduceArcIds (arcs : List (ToolArc Input)) : List String :=
  ((newestFirst (arcs.filter fun arc => vocabulary.classify arc.name = .eidnaraReduce)).take
    eidnaraReduceKeep).map (·.arcId)

structure Supersession where
  todowriteSeen : Nat
  seenFiles : List String
  /-- For each superseded arc, whether it keeps an edit marker. -/
  intents : EntryMap String Bool

def supersedeEdit (state : Supersession) (arc : ToolArc Input) : Supersession :=
  if vocabulary.classify arc.name = .edit then
    match arc.input.bind vocabulary.pathArg with
    | none => state
    | some path =>
      if path ∈ state.seenFiles then
        { state with
          intents := state.intents.insert arc.arcId ((state.intents.find arc.arcId).getD true) }
      else { state with seenFiles := path :: state.seenFiles }
  else state

def supersedeOne (keptReduceArcs : List String) (state : Supersession) (arc : ToolArc Input) :
    Supersession :=
  let state := supersedeEdit vocabulary state arc
  let toolClass := vocabulary.classify arc.name
  let todowriteSeen :=
    if toolClass = .todoWrite then state.todowriteSeen + 1 else state.todowriteSeen
  let isDropTarget : Bool := match toolClass with
    | .todoWrite => todowriteKeep < todowriteSeen
    | .eidnaraReduce => arc.arcId ∉ keptReduceArcs
    | .zeroValueMeta => true
    | .eidnaraNote => arc.input.any vocabulary.isZeroValueNoteCall
    | .edit | .tabled | .unknown => false
  { state with
    todowriteSeen
    intents := if isDropTarget then state.intents.insert arc.arcId false else state.intents }

def selectSupersession (arcs : List (ToolArc Input)) : EntryMap String Bool :=
  ((newestFirst arcs).foldl
    (supersedeOne vocabulary (newestEidnaraReduceArcIds vocabulary arcs))
    ⟨0, [], .empty⟩).intents

def twoPassBatchCanApply (ctx : SelectionContext F) : Bool :=
  ctx.schedulerPressureExecute && (ctx.passAlreadyBusting || ctx.passClass = .emergencyForce)

def selectTwoPass (arcs : List (ToolArc Input)) (ctx : SelectionContext F) : List String :=
  if !twoPassBatchCanApply ctx || ctx.lastExecuteOrdinal = 0 then []
  else
    let keptReduceArcs := newestEidnaraReduceArcIds vocabulary arcs
    let newestTodowrite := (newestFirst
      (arcs.filter fun arc => vocabulary.classify arc.name = .todoWrite)).head?.map (·.arcId)
    (arcs.filter fun arc =>
      arc.ordinal ≤ ctx.lastExecuteOrdinal && arc.reclaimTokens.all (ageReclaimMinTokens ≤ ·) &&
        some arc.arcId ≠ newestTodowrite && arc.arcId ∉ keptReduceArcs).map (·.arcId)

def appliesAgentDrop (ctx : SelectionContext F) (liveIds frozen : List String) (id : String) :
    Bool :=
  let selectable (id : String) := id ∉ frozen && id ∈ liveIds && !ctx.blockIsProtected id
  let firstApplied := id ∈ ctx.firstAppliedAgentDropIds
  let naturalBust := ctx.passAlreadyBusting ||
    (ctx.passClass = .execute && Numbers.lt 0.0 ctx.ceilingTokens &&
      Numbers.le ctx.ceilingTokens ctx.currentTotalInputTokens)
  let canRide := naturalBust || (firstApplied && ctx.agentDropIds.any fun other =>
    other ≠ id && other ∉ ctx.firstAppliedAgentDropIds && selectable other &&
      ctx.agentDropCommandIds.lookup other ≠ ctx.agentDropCommandIds.lookup id)
  selectable id && (!firstApplied || canRide)

def selectAgentDrops (ctx : SelectionContext F) (liveIds frozen : List String) :
    List ReductionDecision :=
  (ctx.agentDropIds.filter (appliesAgentDrop ctx liveIds frozen)).map fun id =>
    ⟨id, .drop, droppedPlaceholder⟩

def bytesToTokens (bytes : Nat) : F := Numbers.round (Numbers.ofCount bytes * 0.25)

def activeFloorTokens (items : List (SelItem Input)) (frozen : List String) : F :=
  let active := items.filter fun item =>
    item.id ∉ frozen && item.messageRole ≠ .system && !item.kind.isOpaque
  let loose := active.foldl
    (fun tokens item => if item.arcId.isNone then tokens + bytesToTokens item.byteSize else tokens)
    (0.0 : F)
  let arcBytes := EntryMap.collect SelItem.arcId
    (fun (bytes : Option Nat) item => min (bytes.getD 0 + item.byteSize) u64Max) active
  loose + (arcBytes.entries.map Prod.snd).foldl (fun total bytes => total + bytesToTokens bytes) 0.0

def reservedArcIds (arcs : List (ToolArc Input)) (tier : Tier) : List String :=
  let group := arcs.filter fun arc => vocabulary.selectionTier arc.name = tier
  let reserve := Numbers.toCount (Numbers.ceil ((0.20 : F) * Numbers.ofCount group.length))
  ((newestFirst group).take reserve).map (·.arcId)

def takeUntilReclaimed (target : F) : F → List (ToolArc Input) → List String
  | _, [] => []
  | reclaimed, arc :: rest =>
    let reclaimed := reclaimed + bytesToTokens arc.reclaimBytes
    if Numbers.le target reclaimed then [arc.arcId]
    else arc.arcId :: takeUntilReclaimed target reclaimed rest

def emergencyCandidates (arcs : List (ToolArc Input)) (ctx : SelectionContext F) (tier : Tier) :
    List (ToolArc Input) :=
  let keptReduceArcs := newestEidnaraReduceArcIds vocabulary arcs
  let reserved :=
    reservedArcIds (F := F) vocabulary arcs .t1 ++ reservedArcIds (F := F) vocabulary arcs .t2
  sortByKey ToolArc.key (arcs.filter fun arc =>
    !(ctx.protectedCutoffOrdinal < arc.ordinal && 0 < ctx.protectedCutoffOrdinal) &&
      arc.arcId ∉ keptReduceArcs && vocabulary.selectionTier arc.name = tier &&
      !(tier ≠ .t3 && arc.arcId ∈ reserved))

def selectEmergency (arcs : List (ToolArc Input)) (ctx : SelectionContext F) (floorTokens : F) :
    List String :=
  let current := ctx.currentTotalInputTokens
  if !Numbers.isFinite ctx.ceilingTokens || Numbers.le ctx.ceilingTokens 0.0 then []
  else if !Numbers.isFinite current || Numbers.le current 0.0 then []
  else if ctx.hasPriorDrop && Numbers.le current ctx.priorInputSample &&
      Numbers.le ctx.priorInputSample current then []
  else
    let fixedFloor := Numbers.max (current - floorTokens) 0.0
    let workingSpan := Numbers.max (ctx.ceilingTokens - fixedFloor) 0.0
    let target := fixedFloor + 0.30 * workingSpan
    let reclaim := Numbers.round (current - target)
    if Numbers.le reclaim 2000.0 then []
    else
      takeUntilReclaimed reclaim 0.0
        (emergencyCandidates vocabulary arcs ctx .t3 ++ emergencyCandidates vocabulary arcs ctx .t2
          ++ emergencyCandidates vocabulary arcs ctx .t1)

/-! ## From arcs to decisions -/

def callDecision (shape : ArcShape) (call : String × Input) : ReductionDecision :=
  match shape with
  | .skeleton => ⟨call.1, .skeleton, vocabulary.skeletonPayload call.2⟩
  | .fullDrop => ⟨call.1, .drop, droppedPlaceholder⟩
  | .editMarker => ⟨call.1, .editMarker, vocabulary.editMarkerPayload call.2⟩

def expandArc (arc : ToolArc Input) (shape : ArcShape) (frozen : List String) :
    List ReductionDecision :=
  ((arc.callInputs.filter fun call => call.1 ∉ frozen).map (callDecision vocabulary shape)) ++
    (arc.resultIds.filter (· ∉ frozen)).map fun id => ⟨id, .drop, droppedPlaceholder⟩

def insertMissing (shape : String → ArcShape) (shapes : EntryMap String ArcShape)
    (arcIds : List String) : EntryMap String ArcShape :=
  arcIds.foldl
    (fun shapes arcId => if (shapes.find arcId).isSome then shapes
      else shapes.insert arcId (shape arcId))
    shapes

def intentShape (intents : EntryMap String Bool) (arcId : String) : ArcShape :=
  if intents.find arcId = some true then .editMarker else .fullDrop

/-- The shape of each selected arc, and the arcs that supersession picked, if it ran. -/
def selectArcShapes (items : List (SelItem Input)) (frozen : List String)
    (activeArcs : List (ToolArc Input)) (ctx : SelectionContext F) (config : SelectionConfig) :
    EntryMap String ArcShape × Option (List String) :=
  let twoPass := selectTwoPass vocabulary activeArcs ctx
  let emergency :=
    if ctx.passClass = .emergencyForce then
      selectEmergency vocabulary activeArcs ctx (activeFloorTokens items frozen)
    else []
  let shapes := insertMissing (fun _ => .fullDrop) .empty (twoPass ++ emergency)
  let ride := ctx.passClass = .execute && ctx.supersessionRideAvailable
  if config.smartDrops && (ride || !emergency.isEmpty || !twoPass.isEmpty) then
    let intents := selectSupersession vocabulary activeArcs
    let arcIds := intents.entries.map Prod.fst
    (insertMissing (intentShape intents) shapes arcIds, some arcIds)
  else (shapes, none)

/-- The arcs that supersession picked although one of their blocks is protected. -/
def protectedSupersessionArcs (activeArcs : List (ToolArc Input)) (eligible : Option (List String))
    (protectedIds : List String) : Option (List String) :=
  eligible.map fun arcIds => arcIds.filter fun arcId =>
    activeArcs.any fun arc => arc.arcId = arcId &&
      (arc.callInputs.any (fun call => call.1 ∈ protectedIds) ||
        arc.resultIds.any (· ∈ protectedIds))

def resolveShape (collapse window : List String) (arcId : String) : ArcShape → ArcShape
  | .fullDrop => if arcId ∈ collapse ∨ arcId ∈ window then .skeleton else .fullDrop
  | shape => shape

def rank : RedKind → Nat
  | .drop => 3
  | .editMarker => 2
  | .skeleton => 1

def dedupeAndSort (decisions : List ReductionDecision) : List ReductionDecision :=
  (EntryMap.collect (fun d : ReductionDecision => some d.targetId)
    (fun best d => match best with
      | some existing => if rank d.kind ≤ rank existing.kind then existing else d
      | none => d)
    decisions).entries.map Prod.snd

structure SelectionOutcome where
  decisions : List ReductionDecision
  twoPassBatchCanApply : Bool
  eligibleSupersessionCount : Option Nat
  supersessionWithheldByTagWindowCount : Option Nat
  supersessionWithheldByExemptMessageCount : Option Nat
  appliedSupersessionCount : Option Nat
  deriving DecidableEq, Repr

def liveIds (items : List (SelItem Input)) : List String :=
  (items.filter fun item => match item.kind with
    | .media | .opaqueBlock | .reasoning | .redactedReasoning => false
    | _ => true).map (·.id)

def activeArcs (items : List (SelItem Input)) (frozen : List String) : List (ToolArc Input) :=
  let ineligible := reasoningIneligibleArcIds items
  (groupArcs items frozen).filter fun arc =>
    !arc.reduced && !arc.providerExecuted && arc.arcId ∉ ineligible

def arcDecisions (items : List (SelItem Input)) (frozen : List String)
    (shapes : EntryMap String ArcShape) (withheld : List String) : List ReductionDecision :=
  let arcs := activeArcs items frozen
  let collapse := reasoningAdjacencyCollapseArcIds items
  let window := ((newestFirst arcs).take recentToolSkeletonWindow).map (·.arcId)
  arcs.flatMap fun arc =>
    match shapes.find arc.arcId with
    | none => []
    | some shape =>
      if arc.arcId ∈ withheld then []
      else expandArc vocabulary arc (resolveShape collapse window arc.arcId shape) frozen

def arcByBlockId (items : List (SelItem Input)) (id : String) : Option String :=
  (items.reverse.find? fun item => item.id = id && item.arcId.isSome).bind (·.arcId)

def keepsDecision (items : List (SelItem Input)) (ctx : SelectionContext F)
    (decision : ReductionDecision) : Bool :=
  let ineligible := reasoningIneligibleArcIds items
  (arcByBlockId items decision.targetId).all (· ∉ ineligible) &&
    !ctx.blockIsProtected decision.targetId

def selectReductionsWithOutcome (items : List (SelItem Input)) (frozen : List String)
    (ctx : SelectionContext F) (config : SelectionConfig) : SelectionOutcome :=
  if ctx.passClass = .defer then ⟨[], false, none, none, none, none⟩
  else
    let arcs := activeArcs items frozen
    let (shapes, eligible) := selectArcShapes vocabulary items frozen arcs ctx config
    let byTagWindow := protectedSupersessionArcs arcs eligible ctx.tagWindowProtectedBlockIds
    let byExemptMessage :=
      protectedSupersessionArcs arcs eligible ctx.exemptMessageProtectedBlockIds
    let withheld := byTagWindow.getD [] ++ byExemptMessage.getD []
    let proposed := arcDecisions vocabulary items frozen shapes withheld ++
      selectAgentDrops ctx (liveIds items) frozen
    let decisions := dedupeAndSort (proposed.filter (keepsDecision items ctx))
    let applied := eligible.map fun arcIds => arcIds.filter fun arcId =>
      decisions.any fun decision => arcByBlockId items decision.targetId = some arcId
    let withheldCount (arcs : Option (List String)) :=
      arcs.bind fun arcs => applied.map fun applied => (arcs.filter (· ∉ applied)).length
    { decisions
      twoPassBatchCanApply := twoPassBatchCanApply ctx
      eligibleSupersessionCount := eligible.map List.length
      supersessionWithheldByTagWindowCount := withheldCount byTagWindow
      supersessionWithheldByExemptMessageCount := withheldCount byExemptMessage
      appliedSupersessionCount := applied.map List.length }

def selectReductions (items : List (SelItem Input)) (frozen : List String)
    (ctx : SelectionContext F) (config : SelectionConfig) : List ReductionDecision :=
  (selectReductionsWithOutcome vocabulary items frozen ctx config).decisions

end Eidnara.Daemon.Selection
