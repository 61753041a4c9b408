/-!
# Double-precision numbers as exact fractions

A finite double is `±m · 2^e` with whole `m` and `e`. Texts and remainders are computed from that
reading in exact arithmetic, so no result depends on the rounding of an intermediate step.
-/

namespace Stencil.Number

/-- What the 64 bits of a double say. -/
inductive Reading where
  | nan
  | infinity (negative : Bool)
  /-- The number `± significand · 2 ^ exponent`. -/
  | finite (negative : Bool) (significand : Nat) (exponent : Int)
deriving DecidableEq, Repr

/-- Reads a bit pattern: one sign bit, eleven exponent bits, fifty-two fraction bits. -/
def Reading.ofBits (bits : UInt64) : Reading :=
  let n := bits.toNat
  let negative := n / Nat.pow 2 63 == 1
  let exponent : Nat := n / Nat.pow 2 52 % Nat.pow 2 11
  let fraction := n % Nat.pow 2 52
  if exponent = 2047 then
    if fraction = 0 then .infinity negative else .nan
  else if exponent = 0 then .finite negative fraction (-1074)
  else .finite negative (Nat.pow 2 52 + fraction) (Int.ofNat exponent - 1075)

/-- Reads a double. -/
def read (x : Float) : Reading := .ofBits x.toBits

/-- The fraction `m · 2^e` as numerator and denominator, the denominator being a power of two. -/
def fraction (m : Nat) (e : Int) : Nat × Nat := (m * Nat.pow 2 e.toNat, Nat.pow 2 (-e).toNat)

theorem fraction_den_pos (m : Nat) (e : Int) : 0 < (fraction m e).2 :=
  Nat.two_pow_pos _

end Stencil.Number
