import LazyXPath.Decimal.Basic

/-!
# Quotients of decimals

A quotient starts as the integer quotient of the coefficients and is extended by up to nine places at
a time, until nothing is left over or there is no room for another place (`Decimal.extend`). What is
left over then rounds the last place half to even.

The places that were needed to get there may end in zeros. Zeros are taken off by eights, fours, twos
and ones (`Decimal.shorten`), which leaves some of them standing; how many decides how the quotient
is rounded when it becomes a floating-point number.
-/

namespace LazyXPath.Decimal

/-- A quotient in the making: the coefficient and the scale reached so far, and what is left over of
the dividend. -/
structure Division where
  coefficient : Nat
  scale : Int
  rest : Nat

/-- The largest number of places, up to the given one, that a coefficient has room for. -/
def room (c : Nat) (scale : Int) : Nat → Nat
  | 0 => 0
  | k + 1 =>
    if scale + (k + 1 : Nat) ≤ maxScale ∧ c * tenTo (k + 1) < limit then k + 1 else room c scale k

/-- A coefficient that outgrew the limit is shortened by a place, which rounds half to even; `more`
says that something is left over behind the last place. -/
def giveUpPlace (c : Nat) (scale : Int) (more : Bool) : Option (Nat × Nat) :=
  if c < limit then some (c, scale.toNat)
  else if scale ≤ 0 then none
  else
    let up := 5 < c % 10 || (c % 10 == 5 && (more || c / 10 % 2 == 1))
    some (if up then c / 10 + 1 else c / 10, (scale - 1).toNat)

/-- Rounds by what is left over of a division by `d`. -/
def Division.round (d : Nat) (v : Division) : Option (Nat × Nat) :=
  let up := d < 2 * v.rest || (d == 2 * v.rest && v.coefficient % 2 == 1)
  giveUpPlace (if up then v.coefficient + 1 else v.coefficient) v.scale true

/-- Takes `k` zeros off a coefficient that is a multiple of `m`, if it has as many places. -/
def shorten (m k : Nat) (c : Nat × Nat) : Nat × Nat :=
  if k ≤ c.2 ∧ c.1 % m = 0 then (c.1 / tenTo k, c.2 - k) else c

/-- Takes zeros off: by eights from a coefficient whose last word is zero, and then at most four, two
and one of them. -/
def shortenAll (c : Nat × Nat) : Nat × Nat :=
  let eight := shorten (twoTo 24 * tenTo 8) 8
  shorten 10 1 (shorten (tenTo 2) 2 (shorten (tenTo 4) 4 (eight (eight (eight c)))))

/-- Extends a quotient by `d` to as many places as it needs or has room for, at least to the scale
zero. The result is the coefficient and the scale; `inexact` says that something was left over before.
Every round adds a place, so that there are at most 57. -/
def extend (d : Nat) : Nat → Bool → Division → Option (Nat × Nat)
  | 0, _, _ => none
  | fuel + 1, inexact, v =>
    if v.rest = 0 ∧ 0 ≤ v.scale then
      let c := (v.coefficient, v.scale.toNat)
      some (if inexact then shortenAll c else c)
    else
      let places := if v.rest = 0 then min 9 (-v.scale).toNat else room v.coefficient v.scale 9
      let scale := v.scale + (places : Int)
      let inexact := inexact || v.rest != 0
      if places < 9 ∧ scale < 0 then none
      else if places = 0 then (v.round d).map shortenAll
      else
        let c := v.coefficient * tenTo places
        let n := v.rest * tenTo places
        if limit ≤ c then none
        else if c + n / d < limit then extend d fuel inexact ⟨c + n / d, scale, n % d⟩
        else (giveUpPlace (c + n / d) scale (n % d != 0)).map shortenAll

/-- The quotient, if the divisor is not zero and it fits. -/
def div? (a b : Decimal) : Option Decimal :=
  if b.isZero then none
  else if a.isZero then some zero
  else do
    let n := a.coefficient.natAbs
    let d := b.coefficient.natAbs
    let (c, scale) ← extend d 58 false ⟨n / d, (a.scale : Int) - b.scale, n % d⟩
    mk? (a.coefficient.sign * b.coefficient.sign * c) scale

end LazyXPath.Decimal
