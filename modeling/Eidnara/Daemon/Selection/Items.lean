import Mathlib.Data.String.Basic

/-!
# Selection items

The flat block-granular view of a conversation that the selectors and the boundary resolver
work on, and the tool vocabulary they share.  The input of a tool call is a parameter.
-/

namespace Eidnara.Daemon.Selection

inductive SelKind (Input : Type)
  | toolCall (name : String) (input : Input)
  | toolResult (toolName : String)
  | reasoning
  | text
  | redactedReasoning
  | media
  | opaqueBlock
  deriving DecidableEq, Repr

namespace SelKind

variable {Input : Type}

def isToolCall : SelKind Input → Bool
  | .toolCall .. => true
  | _ => false

def isToolResult : SelKind Input → Bool
  | .toolResult .. => true
  | _ => false

def isReasoning : SelKind Input → Bool
  | .reasoning | .redactedReasoning => true
  | _ => false

def isOpaque : SelKind Input → Bool
  | .opaqueBlock => true
  | _ => false

def isTool (kind : SelKind Input) : Bool := kind.isToolCall || kind.isToolResult

end SelKind

inductive SelMessageRole
  | assistant
  | system
  | nonAssistant
  deriving DecidableEq, Repr

structure SelItem (Input : Type) where
  id : String
  ordinal : Nat
  messageRole : SelMessageRole
  kind : SelKind Input
  providerExecuted : Bool
  byteSize : Nat
  tokenCount : Option Nat
  arcId : Option String
  deriving DecidableEq, Repr

/-- `str::parse::<usize>`: an optional sign, then digits of a 64-bit value. -/
def parseUsize (text : List Char) : Option Nat :=
  let digits := match text with
    | '+' :: rest => rest
    | _ => text
  if digits.isEmpty || !digits.all Char.isDigit then none
  else
    let value := Nat.ofDigitChars 10 digits 0
    if value < 2 ^ 64 then some value else none

/-- The message of an item, where its id has the form `mid#index`. -/
def itemMessageId {Input : Type} (item : SelItem Input) : Option String :=
  let reversed := item.id.toList.reverse
  match reversed.dropWhile (· ≠ '#') with
  | [] => none
  | _ :: mid =>
    (parseUsize (reversed.takeWhile (· ≠ '#')).reverse).map fun _ => String.ofList mid.reverse

/-! ## The tool vocabulary -/

inductive ToolClass
  | edit
  | todoWrite
  | zeroValueMeta
  | eidnaraReduce
  | eidnaraNote
  | tabled
  | unknown
  deriving DecidableEq, Repr

inductive Tier
  | t1
  | t2
  | t3
  deriving DecidableEq, Repr

/-- The queries about names and inputs that the tables do not answer, and the payloads of
reduced calls. -/
structure Vocabulary (Input : Type) where
  lowercase : String → String
  pathArg : Input → Option String
  isZeroValueNoteCall : Input → Bool
  skeletonPayload : Input → String
  editMarkerPayload : Input → String

def todoTool : String := "todowrite"
def editTools : List String := ["edit", "write"]
def zeroValueMetaTools : List String := ["bash_status", "bash_kill"]
def t1Tools : List String := [todoTool, "read", "task", "aft_outline", "aft_zoom"]
def t2Tools : List String := ["edit", "write", "apply_patch", "grep", "glob", "aft_search"]
def exitCodeTool : String := "bash"
def eidnaraReduceTool : String := "eidnara_reduce"
def eidnaraNoteTool : String := "eidnara_note"
def mcpPrefix : List Char := "mcp_".toList

namespace Vocabulary

variable {Input : Type} (vocabulary : Vocabulary Input)

def normalize (name : String) : String :=
  let lower := vocabulary.lowercase name
  if mcpPrefix.isPrefixOf lower.toList then String.ofList (lower.toList.drop mcpPrefix.length)
  else lower

def classify (name : String) : ToolClass :=
  let name := vocabulary.normalize name
  if name ∈ editTools then .edit
  else if name = todoTool then .todoWrite
  else if name ∈ zeroValueMetaTools then .zeroValueMeta
  else if name = eidnaraReduceTool then .eidnaraReduce
  else if name = eidnaraNoteTool then .eidnaraNote
  else if name ∈ t1Tools ∨ name ∈ t2Tools ∨ name = exitCodeTool then .tabled
  else .unknown

def tier (name : String) : Tier :=
  let name := vocabulary.normalize name
  if name ∈ t1Tools then .t1 else if name ∈ t2Tools then .t2 else .t3

/-- The name is normalized once more than in `tier`. -/
def selectionTier (name : String) : Tier := vocabulary.tier (vocabulary.normalize name)

end Vocabulary

end Eidnara.Daemon.Selection
