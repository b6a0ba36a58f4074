import Mathlib.Data.Char

/-!
# JSON trees

A tree over any type of numbers.  Objects are kept as lists of entries, so that statements can
speak about entry order.
-/

namespace Eidnara.Json

/-- The scalars of a Rust `String`. -/
abbrev Text := List Char

inductive Tree (ν : Type) where
  | null
  | bool (b : Bool)
  | num (n : ν)
  | str (s : Text)
  | arr (items : List (Tree ν))
  | obj (entries : List (Text × Tree ν))

end Eidnara.Json
