import LazyXPath.Decimal.Basic

/-!
# Sums, differences and products of decimals

The scale of a sum is the larger one of its terms, and the scale of a product is the sum of the
scales of its factors. What does not fit there is fitted to a smaller scale (`Decimal.fit?`).

A product that is rounded to zero shows what its factors were: if both are single words, it is the
plain zero, and otherwise it keeps the sign that the product has.
-/

namespace LazyXPath.Decimal

/-- The sum, if it fits. A zero leaves the other term as it is. -/
def add? (a b : Decimal) : Option Decimal :=
  if a.isZero then some b
  else if b.isZero then some a
  else
    let s := max a.scale b.scale
    fit? (a.scaledTo s + b.scaledTo s) (tenTo s) s

/-- The difference, if it fits. -/
def sub? (a b : Decimal) : Option Decimal := a.add? (if b.isZero then b else -b)

/-- Whether the coefficient is a single word, of 32 bits. -/
def isWord (d : Decimal) : Bool := d.coefficient.natAbs < twoTo 32

/-- The decimal, a zero with the sign of an integer. -/
def signedLike (n : Int) (d : Decimal) : Decimal :=
  if d.isZero && !d.minusZero && decide (n < 0) then -d else d

/-- The product, if it fits. A product of single words with more than 47 places, of which there is
nothing left at any scale, has no places at all. -/
def mul? (a b : Decimal) : Option Decimal :=
  let n := a.coefficient * b.coefficient
  let s := a.scale + b.scale
  if n = 0 then some zero
  else if a.isWord && b.isWord then
    if 47 < s then some zero else fit? n (tenTo s) (min maxScale s)
  else (fit? n (tenTo s) (min maxScale s)).map (signedLike n)

end LazyXPath.Decimal
