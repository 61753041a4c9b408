import Stencil.Number.Binary

/-!
# The remainder of a division

`remainder a b` is `a - n · b` for the whole number `n` nearest to `a / b` on the side of zero. It is
exact: the remainder of two doubles is a double. It has the sign of `a`, also when it is zero.
-/

namespace Stencil.Number

/-- The double `± m · 2^e`, for `m` and `e` that fit. -/
def ofParts (negative : Bool) (m : Nat) (e : Int) : Float :=
  let x := (Float.ofNat m).scaleB e
  if negative then -x else x

/-- The double that is not a number. -/
def notANumber : Float := 0.0 / 0.0

/-- Positive infinity. -/
def infinity : Float := 1.0 / 0.0

/-- The remainder of a division that truncates the quotient. -/
def remainder (a b : Float) : Float :=
  match read a, read b with
  | .finite negative m e, .finite _ m' e' =>
    if m' = 0 then notANumber
    else
      let low := min e e'
      ofParts negative ((m * Nat.pow 2 (e - low).toNat) % (m' * Nat.pow 2 (e' - low).toNat)) low
  | .finite .., .infinity _ => a
  | _, _ => notANumber

end Stencil.Number
