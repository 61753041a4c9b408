import Stencil.Number.Binary
import Stencil.Text.Name

/-!
# Numbers with at most four decimal places

The text of a number in a style: the exact value rounded to four places, a half going to the even
neighbour, without trailing zeros. A whole number has no point, and zero has no sign.
-/

namespace Stencil.Number

/-- The whole number nearest to `num / den`; of two equally near ones the even one. -/
def roundHalfEven (num den : Nat) : Nat :=
  let q := num / den
  let r := num % den
  if 2 * r < den then q
  else if den < 2 * r then q + 1
  else if q % 2 = 0 then q else q + 1

/-- Rounding moves a fraction by half a unit at most. -/
theorem roundHalfEven_near (num den : Nat) (h : 0 < den) :
    2 * num ≤ (2 * roundHalfEven num den + 1) * den
      ∧ 2 * (roundHalfEven num den * den) ≤ 2 * num + den := by
  have hq : den * (num / den) + num % den = num := Nat.div_add_mod num den
  have hr : num % den < den := Nat.mod_lt num h
  have hc : ∀ q : Nat, (2 * q + 1) * den = 2 * (den * q) + den := by
    intro q; rw [Nat.add_mul, Nat.one_mul, Nat.mul_assoc, Nat.mul_comm q]
  have hs : ∀ q : Nat, (q + 1) * den = den * q + den := by
    intro q; rw [Nat.add_mul, Nat.one_mul, Nat.mul_comm]
  unfold roundHalfEven
  simp only
  split
  · rw [hc, Nat.mul_comm (num / den)]; omega
  · split
    · rw [hc, hs, Nat.mul_add]; omega
    · split
      · rw [hc, Nat.mul_comm (num / den)]; omega
      · rw [hc, hs, Nat.mul_add]; omega

/-- How many decimal places a number in a style has at most. -/
def places : Nat := 4

/-- The digits of `n`, with zeros in front up to `width` of them. -/
def paddedDigits (width n : Nat) : List Char :=
  let ds := Text.digits n
  List.replicate (width - ds.length) '0' ++ ds

/-- The list without its trailing zeros. -/
def dropZeros (ds : List Char) : List Char := (ds.reverse.dropWhile (· == '0')).reverse

/-- The text of `± n / 10^places`, shortened: no trailing zeros, no bare point, no negative zero. -/
def fixedText (negative : Bool) (n : Nat) : List Char :=
  let sign := if negative && n != 0 then ['-'] else []
  let decimals := dropZeros (paddedDigits places (n % Nat.pow 10 places))
  sign ++ Text.digits (n / Nat.pow 10 places) ++ (if decimals.isEmpty then [] else '.' :: decimals)

/-- The characters of a number in a style. -/
def Reading.characters : Reading → List Char
  | .nan => "NaN".toList
  | .infinity false => "infinity".toList
  | .infinity true => "-infinity".toList
  | .finite negative m e =>
    let (num, den) := fraction m e
    fixedText negative (roundHalfEven (num * Nat.pow 10 places) den)

/-- The text of a number in a style. -/
def text (x : Float) : String := String.ofList (read x).characters

end Stencil.Number
