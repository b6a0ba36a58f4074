import Eidnara.Lib.Backtracking
import Eidnara.Lib.Lanes
import Eidnara.Lib.Utf8

/-!
# The pre-tokenizer

`scan.rs`: the scanner that cuts a text into pieces by the classes of its characters, and the
pattern that it implements by hand.  The scanner works on UTF-8 bytes, eight at a time while
they are ASCII.  An index out of bounds is `none`.
-/

namespace Eidnara.Tokenizer

open Lib Utf8 Words

inductive Class where
  | letter
  | number
  | space
  | other
deriving DecidableEq, Repr

/-- `ASCII_CLASS`. -/
def asciiClass (b : Nat) : Class :=
  if (0x41 ≤ b ∧ b ≤ 0x5A) ∨ (0x61 ≤ b ∧ b ≤ 0x7A) then .letter
  else if 0x30 ≤ b ∧ b ≤ 0x39 then .number
  else if b = 0x09 ∨ b = 0x0A ∨ b = 0x0B ∨ b = 0x0C ∨ b = 0x0D ∨ b = 0x20 then .space
  else .other

/-- A classification of scalars, `class_of_scalar`, that is the table on ASCII. -/
structure Classes where
  ofScalar : Nat → Class
  ascii : ∀ c < 0x80, ofScalar c = asciiClass c

/-! ## The scanner -/

def hi : Nat := 0x8080808080808080

def lo : Nat := 0x0101010101010101

/-- The top bit of each byte between `m` and `n`. -/
def between (x m n : Nat) : Nat :=
  wrappingSub (2 ^ 64) (lo * (0x7F + n)) x &&& (x + lo * (0x7F - m)) % 2 ^ 64 &&& hi

/-- The top bit of each byte that is `v`. -/
def eqMask (x v : Nat) : Nat :=
  complement (2 ^ 64) (((x ^^^ lo * v) + lo * 0x7F) % 2 ^ 64) &&& hi

def asciiClassMask (w : Nat) : Class → Nat
  | .letter => between (w ||| lo * 0x20) 0x60 0x7B
  | .number => between w 0x2F 0x3A
  | .space => between w 0x08 0x0E ||| eqMask w 0x20
  | .other =>
    complement (2 ^ 64) (between (w ||| lo * 0x20) 0x60 0x7B ||| between w 0x2F 0x3A |||
      between w 0x08 0x0E ||| eqMask w 0x20) &&& hi

section

variable (classes : Classes) (bytes : Bytes)

def classAt (i : Nat) : Option (Class × Nat) := do
  let b0 ← bytes[i]?
  if b0 < 0x80 then some (asciiClass b0.toNat, 1)
  else if b0 < 0xE0 then
    let b1 ← bytes[i + 1]?
    some (classes.ofScalar ((b0.toNat &&& 0x1F) <<< 6 ||| b1.toNat &&& 0x3F), 2)
  else if b0 < 0xF0 then
    let b1 ← bytes[i + 1]?
    let b2 ← bytes[i + 2]?
    some (classes.ofScalar
      ((b0.toNat &&& 0x0F) <<< 12 ||| (b1.toNat &&& 0x3F) <<< 6 ||| b2.toNat &&& 0x3F), 3)
  else
    let b1 ← bytes[i + 1]?
    let b2 ← bytes[i + 2]?
    let b3 ← bytes[i + 3]?
    some (classes.ofScalar
      ((b0.toNat &&& 0x07) <<< 18 ||| (b1.toNat &&& 0x3F) <<< 12 ||| (b2.toNat &&& 0x3F) <<< 6 |||
        b3.toNat &&& 0x3F), 4)

/-- One character at a time. -/
def runChars (cls : Class) : Nat → Nat → Option Nat
  | fuel, i =>
    if i < bytes.length then
      match fuel with
      | 0 => none
      | fuel + 1 => do
        let (c, len) ← classAt classes bytes i
        if c ≠ cls then some i else runChars cls fuel (i + len)
    else some i

/-- Eight bytes at a time while they are ASCII. -/
def runWords (cls : Class) : Nat → Nat → Option Nat
  | 0, _ => none
  | fuel + 1, i =>
    match checkedSlice bytes i (i + 8) with
    | none => runChars classes bytes cls bytes.length i
    | some chunk =>
      let w := littleEndian chunk
      if w &&& hi ≠ 0 then runChars classes bytes cls bytes.length i
      else
        let m := asciiClassMask w cls
        if m = hi then runWords cls fuel (i + 8)
        else some (i + trailingZeros 64 (complement (2 ^ 64) m &&& hi) / 8)

def runEnd (i : Nat) (cls : Class) : Option Nat :=
  runWords classes bytes cls (bytes.length + 1) i

/-- The start of the character that covers a byte. -/
def charStart : Nat → Option Nat
  | 0 => do
    let b ← bytes[0]?
    if b &&& 0xC0 = 0x80 then none else some 0
  | last + 1 => do
    let b ← bytes[last + 1]?
    if b &&& 0xC0 = 0x80 then charStart last else some (last + 1)

def whitespacePieceEnd (pos l0 : Nat) : Option Nat := do
  let stop ← runEnd classes bytes (pos + l0) .space
  if stop = bytes.length ∨ stop = pos + l0 then some stop
  else charStart bytes (stop - 1)

def contractionEnd (pos : Nat) : Option Nat :=
  match bytes[pos]?, bytes[pos + 1]?, bytes[pos + 2]? with
  | some 0x27, some b1, b2 =>
    if b1 = 0x73 ∨ b1 = 0x74 ∨ b1 = 0x6D ∨ b1 = 0x64 then some (pos + 2)
    else if (b1 = 0x72 ∨ b1 = 0x76) ∧ b2 = some 0x65 then some (pos + 3)
    else if b1 = 0x6C ∧ b2 = some 0x6C then some (pos + 3)
    else none
  | _, _, _ => none

/-- The class and length of what follows a space at `pos`, where that is not whitespace. -/
def afterSpace (pos : Nat) : Option (Option (Class × Nat)) :=
  if bytes[pos]? = some 0x20 ∧ pos + 1 < bytes.length then do
    let (c1, l1) ← classAt classes bytes (pos + 1)
    some (if c1 ≠ .space then some (c1, l1) else none)
  else some none

def pieceEnd (pos : Nat) : Option Nat := do
  let b0 ← bytes[pos]?
  if b0 < 0x80 then
    match contractionEnd bytes pos with
    | some stop => some stop
    | none =>
      match ← afterSpace classes bytes pos with
      | some (c1, l1) => runEnd classes bytes (pos + 1 + l1) c1
      | none =>
        let c0 := asciiClass b0.toNat
        if c0 ≠ .space then runEnd classes bytes (pos + 1) c0
        else whitespacePieceEnd classes bytes pos 1
  else
    let (c0, l0) ← classAt classes bytes pos
    if c0 ≠ .space then runEnd classes bytes (pos + l0) c0
    else whitespacePieceEnd classes bytes pos l0

def piecesFrom : Nat → Nat → Option (List (Nat × Nat))
  | fuel, pos =>
    if bytes.length ≤ pos then some []
    else
      match fuel with
      | 0 => none
      | fuel + 1 => do
        let stop ← pieceEnd classes bytes pos
        let rest ← piecesFrom fuel stop
        some ((pos, stop) :: rest)

def pieces : Option (List (Nat × Nat)) := piecesFrom classes bytes bytes.length 0

end

/-! ## The pattern -/

namespace Classes

variable (classes : Classes)

def of (c : Char) : Class := classes.ofScalar c.toNat

def is (cls : Class) (c : Char) : Bool := classes.of c = cls

/-- A run of some characters after an optional space. -/
def word (p : Char → Bool) : Pattern Char := .seq (.opt (.one (· = ' '))) (.plus (.one p))

/-- `CLAUDE_PAT_STR`. -/
def pattern : Pattern Char :=
  .anyOf (.literal '\'' ['s'])
    [.literal '\'' ['t'], .literal '\'' ['r', 'e'], .literal '\'' ['v', 'e'],
      .literal '\'' ['m'], .literal '\'' ['l', 'l'], .literal '\'' ['d'],
      word (classes.is .letter), word (classes.is .number),
      word fun c => !(classes.is .space c || classes.is .letter c || classes.is .number c),
      .maximalRun (classes.is .space), .plus (.one (classes.is .space))]

end Classes

end Eidnara.Tokenizer
