/-!
LoopNest.Text.Decimal — decimal text of numbers, and rounding.

* `roundHalfEven` — the integer nearest to a quotient, a half going to
  the even neighbour;
* `binaryNearest` — the nearest quotient with a significand of 53 bits,
  the precision in which elapsed times are added up;
* `fixedText` — a quotient with a fixed number of places;
* `shortText` — a decimal fraction without zeros at its end.
-/

namespace LoopNest

/-- The integer nearest to `num / den`; a half goes to the even neighbour. -/
def roundHalfEven (num den : Nat) : Nat :=
  let q := num / den
  let twice := 2 * (num % den)
  if twice < den then q
  else if den < twice then q + 1
  else if q % 2 = 0 then q else q + 1

/-- A non-negative quotient of two naturals. -/
structure Quotient where
  num : Nat
  den : Nat
deriving DecidableEq, Repr

/-- The exact sum. -/
def Quotient.add (a b : Quotient) : Quotient :=
  ⟨a.num * b.den + b.num * a.den, a.den * b.den⟩

/-- The number of bits before the point, less the 53 that are kept: how far
the significand of `num / den` has to be moved. -/
def binaryShift (num den : Nat) : Int :=
  let guess : Int := (Nat.log2 num : Int) - Nat.log2 den
  let reaches : Bool :=
    if 0 ≤ guess then den * Nat.pow 2 guess.toNat ≤ num else den ≤ num * Nat.pow 2 (-guess).toNat
  (if reaches then guess else guess - 1) - 52

/-- The quotient with a significand of at most 53 bits that is nearest to
`a`, ties going to the even significand. -/
def binaryNearest (a : Quotient) : Quotient :=
  if a.num = 0 then ⟨0, 1⟩
  else
    let shift := binaryShift a.num a.den
    if 0 ≤ shift then
      ⟨roundHalfEven a.num (a.den * Nat.pow 2 shift.toNat) * Nat.pow 2 shift.toNat, 1⟩
    else
      ⟨roundHalfEven (a.num * Nat.pow 2 (-shift).toNat) a.den, Nat.pow 2 (-shift).toNat⟩

/-- Decimal digits, with zeros in front up to a given width. -/
def paddedDigits (width n : Nat) : List Char :=
  let digits := Nat.toDigits 10 n
  List.replicate (width - digits.length) '0' ++ digits

/-- A quotient rounded to a fixed number of places, a half going to the
even neighbour. -/
def fixedText (places : Nat) (a : Quotient) : String :=
  let scaled := roundHalfEven (a.num * Nat.pow 10 places) a.den
  (scaled / Nat.pow 10 places).repr ++ "." ++
    String.ofList (paddedDigits places (scaled % Nat.pow 10 places))

/-- The decimal fraction `n / 10 ^ places` without zeros at its end, and
without a point when nothing follows it. -/
def shortText (places n : Nat) : String :=
  let fraction := (paddedDigits places (n % Nat.pow 10 places)).reverse.dropWhile (· == '0')
  (n / Nat.pow 10 places).repr ++
    if fraction.isEmpty || places == 0 then "" else "." ++ String.ofList fraction.reverse

example : fixedText 3 ⟨625, 10000⟩ = "0.062" := by decide
example : fixedText 3 (binaryNearest ⟨5, 10000⟩) = "0.001" := by decide
example : shortText 9 1500000000 = "1.5" := by decide

end LoopNest
