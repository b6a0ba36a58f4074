import Mathlib.Data.Rat.Floor

/-!
# Measured quantities

Thresholds and token estimates are floating-point numbers in the programs that use them.  What
is proved here about such programs holds whatever the arithmetic does, so the operations are
those of an arbitrary class, with exact rationals as one instance to evaluate with.
-/

namespace Eidnara.Lib

class Numbers (F : Type) extends OfScientific F, Add F, Sub F, Mul F, Div F where
  ofCount : Nat → F
  toCount : F → Nat
  le : F → F → Bool
  lt : F → F → Bool
  max : F → F → F
  min : F → F → F
  round : F → F
  floor : F → F
  ceil : F → F
  isFinite : F → Bool
  /-- The decimal rendering without a fraction. -/
  digits : F → String

namespace Numbers

variable {F : Type} [Numbers F]

def clamp (low high x : F) : F := if lt x low then low else if lt high x then high else x

instance : Numbers ℚ where
  ofCount n := n
  toCount x := ⌊x⌋.toNat
  le x y := x ≤ y
  lt x y := x < y
  max x y := if x ≤ y then y else x
  min x y := if x ≤ y then x else y
  round x := ⌊x + 1 / 2⌋
  floor x := ⌊x⌋
  ceil x := ⌈x⌉
  isFinite _ := true
  digits x := toString ⌊x + 1 / 2⌋

end Numbers

end Eidnara.Lib
