import LazyXPath.Decimal.Basic

/-!
# Decimal text

`Decimal.toText` writes a decimal without trailing zeros and without an exponent. `Decimal.ofDigits?`
reads the digits before and after the point. More places than a coefficient can hold are rounded
half up at the first digit that no longer fits, and the digits after that one are ignored.
-/

namespace LazyXPath

/-- The value of a decimal digit. -/
def digitValue (c : Char) : Nat := c.toNat - '0'.toNat

/-- The value of a string of decimal digits. -/
def digitsValue (cs : List Char) : Nat := cs.foldl (fun n c => 10 * n + digitValue c) 0

/-- A natural number with at least `width` digits. -/
def padded (width n : Nat) : String :=
  let digits := Nat.toDigits 10 n
  String.ofList (List.replicate (width - digits.length) '0' ++ digits)

/-- Whether the text is not empty and consists of decimal digits. -/
def isNumeral (cs : List Char) : Bool := !cs.isEmpty && cs.all Char.isDigit

/-- A sign in front of a text. -/
def splitSign : List Char → Bool × List Char
  | '-' :: cs => (true, cs)
  | '+' :: cs => (false, cs)
  | cs => (false, cs)

/-- The texts before and after the first occurrence of a character. -/
def splitAtFirst (sep : Char) : List Char → Option (List Char × List Char)
  | [] => none
  | c :: cs => if c = sep then some ([], cs) else (splitAtFirst sep cs).map fun p => (c :: p.1, p.2)

namespace Decimal

/-- The text of a decimal with the point before the last `scale` digits. -/
def plainText (d : Decimal) : String :=
  let digits := (padded (d.scale + 1) d.coefficient.natAbs).toList
  let whole := digits.take (digits.length - d.scale)
  let fraction := digits.drop (digits.length - d.scale)
  let body := if d.scale = 0 then whole else whole ++ '.' :: fraction
  String.ofList (if d.isNegative then '-' :: body else body)

/-- The canonical text of a decimal. -/
def toText (d : Decimal) : String := d.normalize.plainText

/-- Reads the digits before the point onto a coefficient. -/
def readWhole (c : Nat) : List Char → Option Nat
  | [] => some c
  | d :: ds =>
    let c' := 10 * c + digitValue d
    if c' < limit then readWhole c' ds else none

/-- The coefficient and scale after rounding at a digit that does not fit. -/
def roundUpAt (c scale digit : Nat) : Option (Nat × Nat) :=
  if digit < 5 then some (c, scale)
  else if c + 1 < limit then some (c + 1, scale)
  else
    match scale with
    | 0 => none
    | s + 1 => some ((c + 1 + 4) / 10, s)

/-- Reads the digits after the point onto a coefficient. -/
def readFraction (c scale : Nat) : List Char → Option (Nat × Nat)
  | [] => some (c, scale)
  | d :: ds =>
    let c' := 10 * c + digitValue d
    if scale < maxScale ∧ c' < limit then readFraction c' (scale + 1) ds
    else roundUpAt c scale (digitValue d)

/-- The decimal with the given sign and digits before and after the point. -/
def ofDigits? (negative : Bool) (whole fraction : List Char) : Option Decimal := do
  let c ← readWhole 0 whole
  let (c, s) ← readFraction c 0 fraction
  mk? (if negative then -(c : Int) else c) s

/-- Reads an optional sign and digits with an optional point among them. A number without decimal
places gets one, a zero. -/
def ofText? (text : List Char) : Option Decimal :=
  let (negative, body) := splitSign text
  let (whole, fraction) := (splitAtFirst '.' body).getD (body, [])
  if isNumeral (whole ++ fraction) then
    ofDigits? negative whole (if fraction.isEmpty then ['0'] else fraction)
  else none

end Decimal

end LazyXPath
