import Eidnara.Lib.Checked
import Mathlib.Data.String.Basic

/-!
# Projecting messages into flat blocks

`projectMessages` gives every block its id `mid#index` and every tool block the arc it belongs
to.  A result joins the arc of the first unanswered call of the latest assistant message that
has its provider call id, so arcs stay apart where provider ids repeat.  `J` stands for JSON
values.
-/

namespace Eidnara.Daemon.Wire

open Lib

inductive OutputKind (J : Type)
  | text (text : String)
  | json (value : J)
  | errorText (text : String)
  | errorJson (value : J)
  | executionDenied (reason : Option String)
  | content (blocks : J)
  | errorContent (blocks : J)
  deriving DecidableEq, Repr

structure ToolOutput (J : Type) where
  kind : OutputKind J
  providerExtras : J
  deriving DecidableEq, Repr

inductive MediaKind
  | image
  | audio
  | video
  | file
  | document
  deriving DecidableEq, Repr

inductive BlockKind (J : Type)
  | text (text : String)
  | reasoning (text : String) (signature : Option String)
  | redactedReasoning (data : String)
  | toolCall (id name : String) (input : J) (providerExecuted : Bool)
  | toolResult (id toolName : String) (output : ToolOutput J) (providerExecuted : Bool)
  | media (kind : MediaKind) (mediaType : String) (filename : Option String) (source : J)
  | opaqueBlock (source : J) (kind : String) (raw : J) (arc : Option J)
  deriving DecidableEq, Repr

structure WireBlock (J : Type) where
  kind : BlockKind J
  providerExtras : J
  deriving DecidableEq, Repr

variable {J : Type}

namespace BlockKind

def tag : BlockKind J → String
  | .text .. => "text"
  | .reasoning .. => "reasoning"
  | .redactedReasoning .. => "redacted_reasoning"
  | .toolCall .. => "tool_call"
  | .toolResult .. => "tool_result"
  | .media .. => "media"
  | .opaqueBlock .. => "opaque"

def isToolCall : BlockKind J → Bool
  | .toolCall .. => true
  | _ => false

def isToolResult : BlockKind J → Bool
  | .toolResult .. => true
  | _ => false

def isReasoning : BlockKind J → Bool
  | .reasoning .. | .redactedReasoning .. => true
  | _ => false

def toolCallId : BlockKind J → Option String
  | .toolCall id .. | .toolResult id .. => some id
  | _ => none

def providerExecuted : BlockKind J → Bool
  | .toolCall _ _ _ executed | .toolResult _ _ _ executed => executed
  | _ => false

end BlockKind

structure IngressMessage (J : Type) where
  mid : String
  ordinal : Nat
  role : String
  synthetic : Bool
  content : List (WireBlock J)
  deriving DecidableEq, Repr

structure FlatBlock (J : Type) where
  id : String
  mid : String
  blockIndex : Nat
  ordinal : Nat
  role : String
  filePath : Option String
  providerExecuted : Bool
  arcId : Option String
  bytes : String
  synthetic : Bool
  toolCallId : Option String
  wire : WireBlock J
  deriving DecidableEq, Repr

inductive WireError
  | emptyMid (ordinal : Nat)
  | midContainsReservedHash (mid : String)
  | duplicateMid (mid : String)
  | unsupportedBlock (mid : String) (blockIndex : Nat) (kind : String)
  | unpairedToolResult (mid : String) (blockIndex : Nat) (toolCallId : String)
  deriving DecidableEq, Repr

/-- What the projection asks of a block's content. -/
structure Codec (J : Type) where
  /-- The canonical text of a block, where it has one. -/
  canonicalBlockText : WireBlock J → Option String
  pathArg : J → Option String

def blockId (mid : String) (index : Nat) : String := mid ++ "#" ++ toString index

def toolArcId (mid callId : String) : String := mid ++ "#call:" ++ callId

/-! ## Arcs -/

abbrev PendingCall := String × String

def countCalls (content : List (WireBlock J)) (id : String) : Nat :=
  content.countP fun block => block.kind.isToolCall && block.kind.toolCallId = some id

def callEntry (mid : String) (content : List (WireBlock J)) (index : Nat) (block : WireBlock J) :
    Option PendingCall :=
  match block.kind with
  | .toolCall id .. =>
    some (id, if 1 < countCalls content id then toolArcId mid id else blockId mid index)
  | _ => none

/-- The calls of an assistant message from the block at `index` on, each with its index. -/
def assignCallArcs (mid : String) (content : List (WireBlock J)) :
    Nat → List (WireBlock J) → List (Nat × PendingCall)
  | _, [] => []
  | index, block :: rest =>
    let others := assignCallArcs mid content (index + 1) rest
    match callEntry mid content index block with
    | some call => (index, call) :: others
    | none => others

def callArc (callArcs : List (Nat × PendingCall)) (index : Nat) : Option String :=
  (callArcs.lookup index).map Prod.snd

def isCallAt (content : List (WireBlock J)) (index : Nat) : Bool :=
  (content[index]?).any (·.kind.isToolCall)

/-- Reasoning joins the call before it, or else the call after it. -/
def adjacentToolCallArc (content : List (WireBlock J)) (callArcs : List (Nat × PendingCall))
    (index : Nat) : Option String :=
  if 0 < index && isCallAt content (index - 1) then callArc callArcs (index - 1)
  else if isCallAt content (index + 1) then callArc callArcs (index + 1)
  else none

def arcForBlock (message : IngressMessage J) (callArcs : List (Nat × PendingCall))
    (pending : List PendingCall) (index : Nat) (block : WireBlock J) :
    Except WireError (Option String × List PendingCall) :=
  match block.kind with
  | .toolCall .. =>
    .ok (if message.role = "assistant" then callArc callArcs index else none, pending)
  | .toolResult id .. =>
    match pending.find? (·.1 = id) with
    | none => .error (.unpairedToolResult message.mid index id)
    | some call => .ok (some call.2, pending.eraseP (·.1 = id))
  | .reasoning .. | .redactedReasoning .. =>
    .ok (if message.role = "assistant" then adjacentToolCallArc message.content callArcs index
      else none, pending)
  | _ => .ok (none, pending)

def flattenBlock (codec : Codec J) (message : IngressMessage J) (synthetic : Bool) (index : Nat)
    (block : WireBlock J) (arcId : Option String) : Except WireError (FlatBlock J) :=
  match codec.canonicalBlockText block with
  | none => .error (.unsupportedBlock message.mid index block.kind.tag)
  | some bytes =>
    .ok
      { id := blockId message.mid index
        mid := message.mid
        blockIndex := index
        ordinal := message.ordinal
        role := message.role
        filePath := match block.kind with
          | .toolCall _ _ input _ => codec.pathArg input
          | _ => none
        providerExecuted := block.kind.providerExecuted
        arcId
        bytes
        synthetic
        toolCallId := block.kind.toolCallId
        wire := block }

/-! ## Messages -/

structure ProjectionState where
  pendingCalls : List PendingCall
  callArcs : List (Nat × PendingCall)
  liveMids : List String
  syntheticMids : List String

structure MessageProjection (J : Type) where
  messages : List (IngressMessage J)
  syntheticMids : List String
  coveredHead : Bool

def MessageProjection.new (messages : List (IngressMessage J)) : MessageProjection J :=
  ⟨messages, [], false⟩

def MessageProjection.isSynthetic (projection : MessageProjection J) (message : IngressMessage J) :
    Bool :=
  message.synthetic || message.mid ∈ projection.syntheticMids

/-- The ids seen so far with one more, which must be usable and new. -/
def claimMid (message : IngressMessage J) (synthetic : Bool) (state : ProjectionState) :
    Except WireError ProjectionState :=
  if message.mid.isEmpty then .error (.emptyMid message.ordinal)
  else if '#' ∈ message.mid.toList then .error (.midContainsReservedHash message.mid)
  else if message.mid ∈ state.liveMids ∨ message.mid ∈ state.syntheticMids then
    .error (.duplicateMid message.mid)
  else if synthetic then
    .ok { state with syntheticMids := message.mid :: state.syntheticMids }
  else .ok { state with liveMids := message.mid :: state.liveMids }

/-- An assistant message opens its own calls and closes those before it. -/
def openCalls (message : IngressMessage J) (state : ProjectionState) : ProjectionState :=
  if message.role = "assistant" then
    let calls := assignCallArcs message.mid message.content 0 message.content
    { state with callArcs := calls, pendingCalls := calls.map Prod.snd }
  else state

/-- The arc of a block of the message: results of a covered head may answer earlier calls. -/
def arcOrCovered (coveredHead : Bool) (message : IngressMessage J)
    (callArcs : List (Nat × PendingCall)) (pending : List PendingCall) (index : Nat)
    (block : WireBlock J) : Except WireError (Option String × List PendingCall) :=
  match arcForBlock message callArcs pending index block with
  | .ok result => .ok result
  | .error error => if coveredHead then .ok (none, pending) else .error error

def projectBlocks (codec : Codec J) (message : IngressMessage J) (synthetic coveredHead : Bool)
    (callArcs : List (Nat × PendingCall)) :
    Nat → List PendingCall → List (WireBlock J) →
      Except WireError (List (FlatBlock J) × List PendingCall)
  | _, pending, [] => .ok ([], pending)
  | index, pending, block :: rest => do
    let (arcId, pending) ← arcOrCovered coveredHead message callArcs pending index block
    let flat ← flattenBlock codec message synthetic index block arcId
    let (others, pending) ←
      projectBlocks codec message synthetic coveredHead callArcs (index + 1) pending rest
    .ok (flat :: others, pending)

/-- A turn that carries no tool results closes the calls before it. -/
def closeCalls (message : IngressMessage J) (pending : List PendingCall) : List PendingCall :=
  if message.role ≠ "assistant" ∧ message.role ≠ "tool" then [] else pending

def projectMessage (codec : Codec J) (synthetic coveredHead : Bool) (state : ProjectionState)
    (message : IngressMessage J) : Except WireError (List (FlatBlock J) × ProjectionState) := do
  let state ← claimMid message synthetic state
  let state := openCalls message state
  let (blocks, pending) ←
    projectBlocks codec message synthetic coveredHead state.callArcs 0 state.pendingCalls
      message.content
  .ok (blocks, { state with pendingCalls := closeCalls message pending })

def projectFrom (codec : Codec J) (isSynthetic : IngressMessage J → Bool) (coveredHead : Bool) :
    ProjectionState → List (IngressMessage J) → Except WireError (List (List (FlatBlock J)))
  | _, [] => .ok []
  | state, message :: rest => do
    let (blocks, state) ←
      projectMessage codec (isSynthetic message) coveredHead state message
    -- Only the first message can answer calls before the window.
    let others ← projectFrom codec isSynthetic false state rest
    .ok (blocks :: others)

def MessageProjection.project (codec : Codec J) (projection : MessageProjection J) :
    Except WireError (List (FlatBlock J)) :=
  (projectFrom codec projection.isSynthetic projection.coveredHead ⟨[], [], [], []⟩
    projection.messages).map List.flatten

def projectMessages (codec : Codec J) (messages : List (IngressMessage J)) :
    Except WireError (List (FlatBlock J)) :=
  (MessageProjection.new messages).project codec

/-! ## Reduced blocks -/

def reducedOutput (reduced : String) : OutputKind J → OutputKind J
  | .text .. | .json .. | .content .. => .text reduced
  | .errorText .. | .errorJson .. | .errorContent .. => .errorText reduced
  | .executionDenied .. => .executionDenied (some reduced)

/-- A block with its content replaced: `callInput` is the input of a reduced call. -/
def reducedBlock (callInput : String → Option String → J) (block : WireBlock J) (reduced : String)
    (filePath : Option String) : WireBlock J :=
  let kind := match block.kind with
    | .toolResult id toolName output executed =>
      .toolResult id toolName ⟨reducedOutput reduced output.kind, output.providerExtras⟩ executed
    | .toolCall id name _ executed => .toolCall id name (callInput reduced filePath) executed
    | .reasoning .. => .reasoning reduced none
    | .text .. | .redactedReasoning .. | .media .. | .opaqueBlock .. => .text reduced
  ⟨kind, block.providerExtras⟩

end Eidnara.Daemon.Wire
