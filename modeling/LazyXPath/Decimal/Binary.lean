import LazyXPath.Binary.Format

/-!
# Decimals and floating-point numbers

A floating-point number is turned into a decimal through exact steps on its significand: the power of
two is traded for powers of ten while the coefficient has room, and then places are dropped, rounding
half up, until the scale is allowed and the coefficient is no larger than the significand of the
format could be. Trailing zeros go last.

In the other direction the integer part and the fraction are converted separately, and their sum is
rounded to as many decimal places as the decimal has. The sign comes last, so that a zero with a
minus sign becomes the negative zero, unless it has no decimal places and counts as an integer.
-/

namespace LazyXPath.Decimal

open Binary

/-- A coefficient together with a decimal exponent. -/
structure Scaled where
  coefficient : Nat
  exponent : Int

/-- Trades `n` halvings for powers of ten. -/
def tradeHalves : Nat → Scaled → Scaled
  | 0, s => s
  | n + 1, ⟨m, e⟩ =>
    if m % 2 = 0 then tradeHalves n ⟨m / 2, e + 1⟩
    else if 5 * m < limit then tradeHalves n ⟨5 * m, e⟩
    else tradeHalves n ⟨m / 2, e + 1⟩

/-- Trades `n` doublings for powers of ten, as long as there is room. -/
def tradeDoubles : Nat → Scaled → Option Scaled
  | 0, s => some s
  | n + 1, ⟨m, e⟩ =>
    if m < twoTo 95 then tradeDoubles n ⟨2 * m, e - 1⟩
    else if ((n + 1 : Nat) : Int) < 2 * e then none
    else tradeDoubles n ⟨m / 5, e⟩

/-- Multiplies `n` powers of ten into the coefficient. -/
def expandTens : Nat → Nat → Option Nat
  | 0, m => some m
  | n + 1, m => if 10 * m < limit then expandTens n (10 * m) else none

/-- Drops `n` places, rounding half up at each; nothing is left of a coefficient that gets to zero. -/
def dropPlaces : Nat → Nat → Option Nat
  | 0, m => some m
  | n + 1, m =>
    if m / 10 = 0 then none
    else dropPlaces n (if 5 ≤ m % 10 then m / 10 + 1 else m / 10)

/-- Drops places, rounding half up at each, while the coefficient is not below the bound. -/
def dropBelow (bound : Nat) : Nat → Nat → Nat × Nat
  | 0, m => (m, 0)
  | s + 1, m =>
    if bound ≤ m then dropBelow bound s (if 5 ≤ m % 10 then m / 10 + 1 else m / 10)
    else (m, s + 1)

/-- The decimal for `m * 2 ^ e`, where significands of the format are below `2 * bound`. -/
def ofBinary? (bound : Nat) (negative : Bool) (m : Nat) (e : Int) : Option Decimal :=
  if m = 0 then some zero
  else do
    let s ← if e < 0 then some (tradeHalves (-e).toNat ⟨m, e⟩) else tradeDoubles e.toNat ⟨m, e⟩
    let c ← expandTens s.exponent.toNat s.coefficient
    let scale := (-s.exponent).toNat
    let (c, scale) := if maxScale < scale then
        match dropPlaces (scale - maxScale) c with
        | some c => (c, maxScale)
        | none => (0, 0)
      else (c, scale)
    let (c, scale) := dropBelow bound scale c
    let (c, scale) := dropZeros scale c
    mk? (if negative then -c else c) scale

/-- The decimal for a double; infinities and numbers that do not fit have none. -/
def ofDouble? (x : Float) : Option Decimal :=
  match datum x with
  | .finite negative m e => ofBinary? (twoTo 52) negative m e
  | _ => none

/-- The decimal for a float; infinities and numbers that do not fit have none. -/
def ofFloat? (x : Float32) : Option Decimal :=
  match datum32 x with
  | .finite negative m e => ofBinary? (twoTo 24) negative m e
  | _ => none

/-- `10 ^ n` as a double, by repeated squaring: `r * a ^ n`. -/
def powerOfTen (r a : Float) : Nat → Nat → Float
  | 0, _ => r
  | fuel + 1, n =>
    let r := if n % 2 = 1 then r * a else r
    if n / 2 = 0 then r else powerOfTen r (a * a) fuel (n / 2)

/-- The double for a decimal. -/
def toDouble (d : Decimal) : Float :=
  let c := d.coefficient.natAbs
  let unit := tenTo d.scale
  let whole := Binary.ofInt (c / unit : Nat)
  let fraction := Binary.ofInt (c % unit : Nat) / Binary.ofInt (unit : Nat)
  let magnitude :=
    if d.scale = 0 ∨ fraction == 0.0 then whole
    else
      let p := powerOfTen 1.0 10.0 6 d.scale
      ((whole + fraction) * p).round / p
  if d.isNegative || (d.minusZero && d.scale != 0) then -magnitude else magnitude

/-- The float for a decimal: the double, rounded once more. -/
def toFloat (d : Decimal) : Float32 := d.toDouble.toFloat32

end LazyXPath.Decimal
