import Stencil.Number.Binary
import Stencil.Text.Name

/-!
# The shortest digits that read back

The text of a number in a note: the fewest digits that no other double is nearer to, written without
an exponent. The doubles next to `m · 2^e` leave it an interval of reals, and the search looks for
the coarsest decimal grid with a point in that interval. A point of the grid lies in the interval
only if one of the two grid points around the value does, so only these two are tried.
-/

namespace Stencil.Number

/-- The interval of reals that round to a given double, on the grid of multiples of `10 ^ p`. All
numbers are scaled to be whole: a grid point `c` stands at `c * unit`, the value at `centre`. -/
structure Window where
  unit : Nat
  low : Nat
  centre : Nat
  high : Nat
  /-- Whether the ends belong to the interval: a tie is rounded to an even significand. -/
  closed : Bool

/-- The window of `m · 2^e` on the grid `10 ^ p`. Below a power of two the gap is half as wide. -/
def window (m : Nat) (e p : Int) : Window :=
  let unit := Nat.pow 10 p.toNat * Nat.pow 2 (2 - e).toNat
  let scale := Nat.pow 2 (e - 2).toNat * Nat.pow 10 (-p).toNat
  let below := if m = Nat.pow 2 52 ∧ -1074 < e then 1 else 2
  { unit, low := (4 * m - below) * scale, centre := 4 * m * scale, high := (4 * m + 2) * scale,
    closed := m % 2 == 0 }

/-- Whether a scaled number lies in the window. -/
def Window.holds (w : Window) (x : Nat) : Bool :=
  if w.closed then w.low ≤ x && x ≤ w.high else w.low < x && x < w.high

/-- The grid point in the window nearest to its centre, the greater one on a tie. -/
def Window.point? (w : Window) : Option Nat :=
  let c := w.centre / w.unit
  let down := c != 0 && w.holds (c * w.unit)
  let up := w.holds ((c + 1) * w.unit)
  if down && up then
    some (if w.centre - c * w.unit < (c + 1) * w.unit - w.centre then c else c + 1)
  else if down then some c
  else if up then some (c + 1)
  else none

/-- The shortest decimal `c · 10^p` that reads back as `m · 2^e`, for `m` not zero. The coarsest grid
tried is above every double, and the finest one has every double on it. -/
def shortest (m : Nat) (e : Int) : Nat × Int :=
  let onGrid (k : Nat) : Option (Nat × Int) :=
    let p := 309 - (k : Int)
    ((window m e p).point?).map (·, p)
  ((List.range 1384).findSome? onGrid).getD (0, 0)

/-- The digits of `c · 10^p`, without an exponent. -/
def positional (c : Nat) (p : Int) : List Char :=
  let ds := Text.digits c
  if 0 ≤ p then ds ++ List.replicate p.toNat '0'
  else
    let k := (-p).toNat
    let padded := List.replicate (k + 1 - ds.length) '0' ++ ds
    padded.take (padded.length - k) ++ '.' :: padded.drop (padded.length - k)

/-- The text of a number in a note. -/
def plainText (x : Float) : String :=
  match read x with
  | .nan => "NaN"
  | .infinity negative => if negative then "-inf" else "inf"
  | .finite negative m e =>
    let body := if m = 0 then ['0'] else
      let (c, p) := shortest m e
      positional c p
    String.ofList (if negative then '-' :: body else body)

end Stencil.Number
