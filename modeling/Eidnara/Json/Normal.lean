import Eidnara.Json.Value
import Eidnara.Lib.SortedEntries

/-!
# Key-sorted trees

`Tree.sorted` puts the entries of every object in key order.
-/

namespace Eidnara.Json

open Lib.SortedEntries

variable {ν : Type}

mutual

def Tree.sorted : Tree ν → Tree ν
  | .null => .null
  | .bool b => .bool b
  | .num q => .num q
  | .str s => .str s
  | .arr items => .arr (Tree.sortedItems items)
  | .obj entries => .obj (collectEntries (Tree.sortedEntries entries))

def Tree.sortedItems : List (Tree ν) → List (Tree ν)
  | [] => []
  | item :: items => item.sorted :: Tree.sortedItems items

/-- The entries in their own order, with sorted values. -/
def Tree.sortedEntries : List (Text × Tree ν) → List (Text × Tree ν)
  | [] => []
  | (key, value) :: entries => (key, value.sorted) :: Tree.sortedEntries entries

end

mutual

def Tree.Distinct : Tree ν → Prop
  | .arr items => Tree.DistinctItems items
  | .obj entries => (entries.map Prod.fst).Nodup ∧ Tree.DistinctEntries entries
  | _ => True

def Tree.DistinctItems : List (Tree ν) → Prop
  | [] => True
  | item :: items => item.Distinct ∧ Tree.DistinctItems items

def Tree.DistinctEntries : List (Text × Tree ν) → Prop
  | [] => True
  | (_, value) :: entries => value.Distinct ∧ Tree.DistinctEntries entries

end

theorem sortedEntries_eq_map (entries : List (Text × Tree ν)) :
    Tree.sortedEntries entries = entries.map fun e => (e.1, e.2.sorted) := by
  induction entries with
  | nil => simp [Tree.sortedEntries]
  | cons entry entries ih => simp [Tree.sortedEntries, ih]

theorem distinctEntries_iff (entries : List (Text × Tree ν)) :
    Tree.DistinctEntries entries ↔ ∀ e ∈ entries, e.2.Distinct := by
  induction entries with
  | nil => simp [Tree.DistinctEntries]
  | cons entry entries ih => simp [Tree.DistinctEntries, ih]

theorem distinctItems_iff (items : List (Tree ν)) :
    Tree.DistinctItems items ↔ ∀ item ∈ items, item.Distinct := by
  induction items with
  | nil => simp [Tree.DistinctItems]
  | cons item items ih => simp [Tree.DistinctItems, ih]

theorem keys_sortedEntries (entries : List (Text × Tree ν)) :
    (Tree.sortedEntries entries).map Prod.fst = entries.map Prod.fst := by
  rw [sortedEntries_eq_map]
  simp

end Eidnara.Json
