/-!
# Division rounded to the nearest integer

All inexact numbers of this library come from one rounding: a quotient of natural numbers goes to
the nearest integer, and a half goes to the even neighbour.

* `roundDiv` is that quotient.
-/

namespace Unscript.Number

/-- The integer nearest to `num / den`, the even one of two equally near. -/
def roundDiv (num den : Nat) : Nat :=
  let q := num / den
  let r := num % den
  if den < 2 * r ∨ (den = 2 * r ∧ q % 2 = 1) then q + 1 else q

end Unscript.Number
