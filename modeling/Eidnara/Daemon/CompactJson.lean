import Eidnara.Daemon.JsonString
import Eidnara.Json.Value

/-!
# Compact JSON

`compact` is the compact text of a tree, with strings spelled as `serde_json` spells them.
-/

namespace Eidnara.Daemon

open Lib Utf8 Eidnara.Json List

section Compact

variable {ν : Type} (spell : ν → Bytes)

mutual

/-- Compact JSON with strings spelled as `serde_json` spells them. -/
def compact : Json.Tree ν → Bytes
  | .null => [0x6e, 0x75, 0x6c, 0x6c]
  | .bool true => [0x74, 0x72, 0x75, 0x65]
  | .bool false => [0x66, 0x61, 0x6c, 0x73, 0x65]
  | .num n => spell n
  | .str s => quoted (utf8 s)
  | .arr items => 0x5b :: (compactItems items true ++ [0x5d])
  | .obj entries => 0x7b :: (compactEntries entries true ++ [0x7d])

def compactItems : List (Json.Tree ν) → Bool → Bytes
  | [], _ => []
  | item :: items, first =>
    (if first then [] else [0x2c]) ++ compact item ++ compactItems items false

def compactEntries : List (Text × Json.Tree ν) → Bool → Bytes
  | [], _ => []
  | (key, value) :: entries, first =>
    (if first then [] else [0x2c]) ++ quoted (utf8 key) ++ 0x3a :: compact value ++
      compactEntries entries false

end

variable {spell}

def entryLength (spell : ν → Bytes) (entry : Text × Json.Tree ν) : Nat :=
  (quoted (utf8 entry.1)).length + 1 + (compact spell entry.2).length

theorem length_compactEntries_rest (entries : List (Text × Json.Tree ν)) :
    (compactEntries spell entries false).length =
      (entries.map (entryLength spell)).sum + entries.length := by
  induction entries with
  | nil => rfl
  | cons entry entries ih =>
    simp only [compactEntries, length_append, length_cons, map_cons,
      sum_cons, ih, entryLength, Bool.false_eq_true, if_false, length_nil]
    omega

theorem length_compactEntries_first (entries : List (Text × Json.Tree ν)) :
    (compactEntries spell entries true).length =
      (entries.map (entryLength spell)).sum + (entries.length - 1) := by
  cases entries with
  | nil => rfl
  | cons entry entries =>
    simp only [compactEntries, length_append, length_cons, map_cons,
      sum_cons, length_compactEntries_rest, entryLength, if_true, length_nil]
    omega

theorem length_compact_obj (entries : List (Text × Json.Tree ν)) :
    (compact spell (.obj entries)).length =
      2 + (entries.map (entryLength spell)).sum + (entries.length - 1) := by
  rw [compact, length_cons, length_append, length_compactEntries_first,
    length_singleton]
  omega

end Compact

end Eidnara.Daemon
