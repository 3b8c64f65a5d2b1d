import LazyXPath.Binary.Format
import LazyXPath.Decimal.Text

/-!
# Shortest decimal text of a floating-point number

The text of a finite number has the **fewest significant digits that read back** as the same number
and, among those, the digits nearest to it. `shortest` finds them by going down through the decimal
grids: on each grid only the two neighbours of the number have to be tried, because the numbers that
read back form an interval around it.

Numbers from a millionth up to below a million are written positionally, all others with an
exponent and at least one place after the point.
-/

namespace LazyXPath.Binary

/-- Digits and a decimal exponent: the value is `digits * 10 ^ exponent`. -/
structure Scientific where
  digits : Nat
  exponent : Int
deriving DecidableEq

/-- The search for the shortest digits of `m * 2 ^ e`, from the grid `10 ^ k` down. -/
def searchGrid (f : Format) (m : Nat) (e : Int) : Nat → Int → Scientific
  | 0, k => ⟨0, k⟩
  | tries + 1, k =>
    -- everything in quarters of the unit in the last place
    let (p, q) := Format.power (e - 2)
    let up := p * tenTo (-k).toNat
    let down := q * tenTo k.toNat
    let lowest := if m = f.fractions ∧ f.leastExponent < e then 4 * m - 1 else 4 * m - 2
    let value := 4 * m * up
    let reads (c : Nat) : Bool :=
      if m % 2 = 0 then lowest * up ≤ c * down && c * down ≤ (4 * m + 2) * up
      else lowest * up < c * down && c * down < (4 * m + 2) * up
    let below := value / down
    match reads below, reads (below + 1) with
    | true, true => ⟨if value - below * down < (below + 1) * down - value then below else below + 1, k⟩
    | true, false => ⟨below, k⟩
    | false, true => ⟨below + 1, k⟩
    | false, false => searchGrid f m e tries (k - 1)

/-- An upper estimate of the decimal exponent at which the search starts. -/
def startExponent (m : Nat) (e : Int) : Int := ((m.log2 : Int) + e + 1) * 30103 / 100000 + 2

/-- The shortest digits of `m * 2 ^ e`, for a positive `m`. -/
def shortest (f : Format) (m : Nat) (e : Int) : Scientific :=
  searchGrid f m e 25 (startExponent m e)

/-- How floating-point numbers are written. -/
structure Style where
  /-- Numbers whose first digit has at least this decimal exponent are written positionally … -/
  positionalFrom : Int
  /-- … if it is also below this one. -/
  positionalBelow : Int
  exponentMark : Char
  notANumber : String
  infinite : String

/-- Positional from a millionth up to a million; the exponent is marked `E`. -/
def canonicalStyle : Style := ⟨-6, 6, 'E', "NaN", "INF"⟩

/-- Digits in positional form. -/
def Scientific.positional (s : Scientific) : String :=
  if 0 ≤ s.exponent then String.ofList (Nat.toDigits 10 s.digits ++ List.replicate s.exponent.toNat '0')
  else
    let places := (-s.exponent).toNat
    let digits := (padded (places + 1) s.digits).toList
    String.ofList (digits.take (digits.length - places) ++ '.' :: digits.drop (digits.length - places))

/-- Digits with one of them before the point, and an exponent. -/
def Scientific.scientific (mark : Char) (s : Scientific) : String :=
  let digits := Nat.toDigits 10 s.digits
  let lead := s.exponent + (digits.length - 1 : Nat)
  let fraction := if digits.length = 1 then ['0'] else digits.drop 1
  String.ofList (digits.take 1 ++ '.' :: fraction ++ [mark]) ++ toString lead

/-- The text of a datum of a format. -/
def Datum.toText (style : Style) (f : Format) : Datum → String
  | .nan => style.notANumber
  | .infinity negative => (if negative then "-" else "") ++ style.infinite
  | .finite negative 0 _ => if negative then "-0" else "0"
  | .finite negative m e =>
    let s := shortest f m e
    let lead := s.exponent + ((Nat.toDigits 10 s.digits).length - 1 : Nat)
    (if negative then "-" else "") ++
      if style.positionalFrom ≤ lead ∧ lead < style.positionalBelow then s.positional
      else s.scientific style.exponentMark

/-- The canonical text of a double. -/
def doubleText (x : Float) : String := (datum x).toText canonicalStyle binary64

/-- The canonical text of a float. -/
def floatText (x : Float32) : String := (datum32 x).toText canonicalStyle binary32

/-! ### Reading -/

/-- The double nearest to `digits * 10 ^ exponent`. Exponents far outside the range of the format
are not expanded. -/
def ofScientific (negative : Bool) (digits : Nat) (exponent : Int) : Float :=
  let size := exponent + (Nat.toDigits 10 digits).length
  if digits = 0 ∨ size < -400 then ofRatio negative 0 1
  else if 400 < size then infinity negative
  else ofRatio negative (digits * tenTo exponent.toNat) (tenTo (-exponent).toNat)

/-- Reads an optional sign, digits with an optional point among them, and an optional exponent; or
one of the names of the special values. -/
def doubleOfText? (text : List Char) : Option Float :=
  match String.ofList text with
  | "INF" | "+INF" => some (infinity false)
  | "-INF" => some (infinity true)
  | "NaN" => some nan
  | _ =>
    let mantissa := text.takeWhile fun c => c != 'e' && c != 'E'
    let tail := text.drop mantissa.length
    let (negative, body) := splitSign mantissa
    let (whole, fraction) := (splitAtFirst '.' body).getD (body, [])
    let (negativeExponent, exponent) := splitSign (tail.drop 1)
    if isNumeral (whole ++ fraction) && (tail.isEmpty || isNumeral exponent) then
      let size : Int := digitsValue exponent
      let shift := (if negativeExponent then -size else size) - fraction.length
      some (ofScientific negative (digitsValue (whole ++ fraction)) shift)
    else none

end LazyXPath.Binary
