import Eidnara.Daemon.JsonString
import Eidnara.Json.Value
import Mathlib.Data.List.Sort

/-!
# One-pass canonical encoding

The encoder of `served_json.rs` writes the compact text of a document and records
the byte span of every object and of its fields.  Canonical order is then reached
by sorting the recorded fields and copying whole spans.

Texts are bytes.  Numbers are spelled by a parameter, since their digits come
from `serde_json`.  An `expect` or an out-of-range index of the source is `none`.
-/

namespace Eidnara.Daemon.ServedJson

open Lib Utf8 Eidnara.Json

/-! ## Recorded spans -/

structure Field where
  start : Nat
  stop : Nat
  keyEnd : Nat
deriving DecidableEq, Repr

structure ObjectSpans where
  start : Nat
  stop : Nat
  fields : List Field
deriving DecidableEq, Repr

/-- Entries past `len` belong to an earlier document. -/
structure ObjectPool where
  items : List ObjectSpans
  len : Nat
deriving DecidableEq, Repr

namespace ObjectPool

def begin (pool : ObjectPool) (start : Nat) : Nat × ObjectPool :=
  let object : ObjectSpans := { start, stop := 0, fields := [] }
  let items :=
    if pool.len < pool.items.length then pool.items.set pool.len object
    else pool.items ++ [object]
  (pool.len, { items, len := pool.len + 1 })

def live (pool : ObjectPool) : List ObjectSpans := pool.items.take pool.len

end ObjectPool

structure Encoder where
  text : Bytes
  objects : ObjectPool
  /-- Open objects, innermost first. -/
  stack : List Nat
  depth : Nat
  maxDepth : Nat
deriving DecidableEq, Repr

namespace Encoder

def new : Encoder where
  text := []
  objects := ⟨[], 0⟩
  stack := []
  depth := 0
  maxDepth := 0

def reset (encoder : Encoder) : Encoder :=
  { text := [], objects := { encoder.objects with len := 0 }, stack := [], depth := 0
    maxDepth := 0 }

def push (encoder : Encoder) (bytes : Bytes) : Encoder :=
  { encoder with text := encoder.text ++ bytes }

def enterContainer (encoder : Encoder) : Encoder :=
  { encoder with
    depth := encoder.depth + 1
    maxDepth := max encoder.maxDepth (encoder.depth + 1) }

def beginArray (encoder : Encoder) : Encoder := encoder.enterContainer.push [0x5b]

def endArray (encoder : Encoder) : Encoder :=
  { encoder with depth := encoder.depth - 1 }.push [0x5d]

def beginArrayValue (encoder : Encoder) (first : Bool) : Encoder :=
  if first then encoder else encoder.push [0x2c]

def updateObject (encoder : Encoder) (index : Nat) (change : ObjectSpans → Option ObjectSpans) :
    Option Encoder := do
  let object ← encoder.objects.items[index]?
  let object ← change object
  some { encoder with
    objects := { encoder.objects with items := encoder.objects.items.set index object } }

def beginObject (encoder : Encoder) : Encoder :=
  let encoder := encoder.enterContainer
  let (index, objects) := encoder.objects.begin encoder.text.length
  { encoder with objects, stack := index :: encoder.stack }.push [0x7b]

def endObject (encoder : Encoder) : Option Encoder := do
  let encoder := encoder.push [0x7d]
  let index ← encoder.stack.head?
  { encoder with depth := encoder.depth - 1, stack := encoder.stack.tail }.updateObject index
    fun object => some { object with stop := encoder.text.length }

def beginObjectKey (encoder : Encoder) (first : Bool) : Option Encoder := do
  let encoder := if first then encoder else encoder.push [0x2c]
  let index ← encoder.stack.head?
  encoder.updateObject index fun object =>
    some { object with fields := object.fields ++ [⟨encoder.text.length, 0, 0⟩] }

def updateLast (change : Field → Field) (object : ObjectSpans) : Option ObjectSpans := do
  let field ← object.fields.getLast?
  some { object with fields := object.fields.dropLast ++ [change field] }

def endObjectKey (encoder : Encoder) : Option Encoder := do
  let index ← encoder.stack.head?
  encoder.updateObject index
    (updateLast fun field => { field with keyEnd := encoder.text.length })

def beginObjectValue (encoder : Encoder) : Encoder := encoder.push [0x3a]

def endObjectValue (encoder : Encoder) : Option Encoder := do
  let index ← encoder.stack.head?
  encoder.updateObject index
    (updateLast fun field => { field with stop := encoder.text.length })

def string (encoder : Encoder) (value : Bytes) : Encoder :=
  { encoder with text := pushEscaped encoder.text value }

end Encoder

/-! ## Serialization -/

section Serialize

variable {ν : Type} (spell : ν → Bytes)

mutual

/-- The calls `serde` makes on the encoder for a tree.  An empty container is
closed at once. -/
def serialize : Json.Tree ν → Encoder → Option Encoder
  | .null, encoder => some (encoder.push [0x6e, 0x75, 0x6c, 0x6c])
  | .bool true, encoder => some (encoder.push [0x74, 0x72, 0x75, 0x65])
  | .bool false, encoder => some (encoder.push [0x66, 0x61, 0x6c, 0x73, 0x65])
  | .num n, encoder => some (encoder.push (spell n))
  | .str s, encoder => some (encoder.string (utf8 s))
  | .arr [], encoder => some encoder.beginArray.endArray
  | .arr (item :: items), encoder => do
    let encoder ← serializeItems (item :: items) true encoder.beginArray
    some encoder.endArray
  | .obj [], encoder => encoder.beginObject.endObject
  | .obj (entry :: entries), encoder => do
    let encoder ← serializeEntries (entry :: entries) true encoder.beginObject
    encoder.endObject

def serializeItems : List (Json.Tree ν) → Bool → Encoder → Option Encoder
  | [], _, encoder => some encoder
  | item :: items, first, encoder => do
    let encoder ← serialize item (encoder.beginArrayValue first)
    serializeItems items false encoder

def serializeEntries : List (Text × Json.Tree ν) → Bool → Encoder → Option Encoder
  | [], _, encoder => some encoder
  | (key, value) :: entries, first, encoder => do
    let encoder ← encoder.beginObjectKey first
    let encoder ← (encoder.string (utf8 key)).endObjectKey
    let encoder ← serialize value encoder.beginObjectValue
    let encoder ← encoder.endObjectValue
    serializeEntries entries false encoder

end

end Serialize

/-! ## Sorting fields -/

def rawKey (bytes : Bytes) (field : Field) : Bytes :=
  slice bytes (field.start + 1) (field.keyEnd - 1)

def isSortedByKey {α : Type} (key : α → List Nat) : List α → Bool
  | a :: b :: rest => key a ≤ key b && isSortedByKey key (b :: rest)
  | _ => true

/-- What is taken of `serde_json::from_slice::<String>`: it reads back a key as the
encoder quotes it. -/
def ReadsQuoted (decode : Bytes → Option Bytes) : Prop :=
  ∀ key : Text, decode (quoted (utf8 key)) = some (utf8 key)

section Decoded

variable (decode : Bytes → Option Bytes)

def decodedKey (bytes : Bytes) (field : Field) : Option Bytes :=
  decode (slice bytes field.start field.keyEnd)

/-- `sort_fields`: whether any field moved, and the fields in key order. -/
def sortFields (bytes : Bytes) (fields : List Field) : Option (Bool × List Field) :=
  if fields.length < 2 then some (false, fields)
  else if fields.all fun field => !(rawKey bytes field).contains 0x5c then
    if isSortedByKey (fun field => byteOrder (rawKey bytes field)) fields then
      some (false, fields)
    else
      some (true, fields.insertionSort fun a b =>
        byteOrder (rawKey bytes a) ≤ byteOrder (rawKey bytes b))
  else do
    -- the keys are decoded once, then the pairs are sorted
    let keys ← fields.mapM (decodedKey decode bytes)
    let sorted := ((keys.zip fields).insertionSort fun a b => byteOrder a.1 ≤ byteOrder b.1).map
      Prod.snd
    some (!isSortedByKey (fun field => [field.start]) sorted, sorted)

def sortAllFields (bytes : Bytes) : List ObjectSpans → Option (Bool × List ObjectSpans)
  | [] => some (false, [])
  | object :: rest => do
    let (changed, fields) ← sortFields decode bytes object.fields
    let (others, rest) ← sortAllFields bytes rest
    some (changed || others, { object with fields } :: rest)

end Decoded

/-! ## Copying -/

/-- `partition_point` by the start of an object, on objects in start order. -/
def partitionPoint (objects : List ObjectSpans) (position : Nat) : Nat :=
  (objects.takeWhile fun object => object.start < position).length

/-- `&text[start..stop]`, which must be in range. -/
def sliceChecked (text : Bytes) (start stop : Nat) : Option Bytes :=
  if start ≤ stop ∧ stop ≤ text.length then some (slice text start stop) else none

def copyFields (copy : Nat → Nat → Bytes → Option Bytes) : List Field → Bool → Bytes →
    Option Bytes
  | [], _, out => some out
  | field :: fields, first, out => do
    let out := if first then out else out ++ [0x2c]
    let out ← copy field.start field.stop out
    copyFields copy fields false out

mutual

/-- `copy_sorted_range`; the fuel bounds the nesting and the iterations. -/
def copySortedRange : Nat → Bytes → List ObjectSpans → Nat → Nat → Bytes → Option Bytes
  | 0, _, _, _, _, _ => none
  | fuel + 1, text, objects, start, stop, out =>
    copyObjects fuel text objects start (partitionPoint objects start) stop out

def copyObjects : Nat → Bytes → List ObjectSpans → Nat → Nat → Nat → Bytes → Option Bytes
  | 0, _, _, _, _, _, _ => none
  | fuel + 1, text, objects, position, index, stop, out =>
    match (objects[index]?).filter fun object => object.start < stop with
    | some object => do
      let before ← sliceChecked text position object.start
      let out ← copyFields (copySortedRange fuel text objects) object.fields true
        (out ++ before ++ [0x7b])
      copyObjects fuel text objects object.stop (partitionPoint objects object.stop) stop
        (out ++ [0x7d])
    | none => do
      let last ← sliceChecked text position stop
      some (out ++ last)

end

/-! ## Canonical texts -/

structure Encoded where
  bytes : Bytes
  objects : List ObjectSpans
  maxDepth : Nat
deriving DecidableEq, Repr

def serializeWithSpans {ν : Type} (spell : ν → Bytes) (value : Json.Tree ν) : Option Encoded := do
  let encoder ← serialize spell value Encoder.new
  some { bytes := encoder.text, objects := encoder.objects.items.take encoder.objects.len
         maxDepth := encoder.maxDepth }

def copyFuel (objects : List ObjectSpans) : Nat := 2 * objects.length + 2

variable (decode : Bytes → Option Bytes)

/-- `finalize`: the serialization buffer itself when nothing moved. -/
def finalize (encoded : Encoded) : Option Bytes := do
  let (changed, objects) ← sortAllFields decode encoded.bytes encoded.objects
  if !changed then some encoded.bytes
  else copySortedRange (copyFuel objects) encoded.bytes objects 0 encoded.bytes.length []

structure CanonicalScratch where
  encoder : Encoder
  sorted : Bytes
deriving DecidableEq, Repr

/-- `encode_block_into`: the scratch afterwards, and whether the canonical text is
the reordered copy in it. -/
def encodeBlockInto {ν : Type} (spell : ν → Bytes) (scratch : CanonicalScratch)
    (block : Json.Tree ν) : Option (CanonicalScratch × Bool) := do
  let encoder ← serialize spell block scratch.encoder.reset
  let (changed, live) ← sortAllFields decode encoder.text encoder.objects.live
  let pool : ObjectPool :=
    { encoder.objects with items := live ++ encoder.objects.items.drop encoder.objects.len }
  let encoder := { encoder with objects := pool }
  if !changed then some ({ scratch with encoder }, false)
  else do
    let sorted ← copySortedRange (copyFuel encoder.objects.live) encoder.text
      encoder.objects.live 0 encoder.text.length []
    some ({ encoder, sorted }, true)

def canonicalBlockText {ν : Type} (spell : ν → Bytes) (scratch : CanonicalScratch)
    (block : Json.Tree ν) : Option Bytes := do
  let (scratch, reordered) ← encodeBlockInto decode spell scratch block
  some (if reordered then scratch.sorted else scratch.encoder.text)

end Eidnara.Daemon.ServedJson
