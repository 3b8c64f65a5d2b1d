import LazyXPath.Decimal.Basic

/-!
# Binary floating-point formats

A floating-point word is read as a **datum**: not a number, an infinity, or a signed multiple of a
power of two. `Format.decode` reads a word, and `Format.nearest` gives the word nearest to an exact
quotient, a tie going to the even significand and a value beyond the range to an infinity. All of it
is exact arithmetic on natural numbers.
-/

namespace LazyXPath.Binary

/-- A binary interchange format. -/
structure Format where
  /-- The number of significant bits, the hidden one included. -/
  precision : Nat
  /-- The number of bits of the exponent field. -/
  exponentBits : Nat
  /-- The exponent of the least positive number, which is a power of two. -/
  leastExponent : Int

/-- The 64-bit format. -/
def binary64 : Format := ⟨53, 11, -1074⟩

/-- The 32-bit format. -/
def binary32 : Format := ⟨24, 8, -149⟩

/-- What a floating-point word stands for. -/
inductive Datum where
  | nan
  | infinity (negative : Bool)
  | finite (negative : Bool) (mantissa : Nat) (exponent : Int)
deriving DecidableEq

namespace Format

variable (f : Format)

/-- The number of values of the fraction field. -/
def fractions : Nat := twoTo (f.precision - 1)

/-- The number of values of the exponent field. -/
def exponents : Nat := twoTo f.exponentBits

/-- The word of the positive infinity. -/
def infinityWord : Nat := (f.exponents - 1) * f.fractions

/-- The word with the sign bit alone. -/
def signWord : Nat := f.exponents * f.fractions

/-- What a word stands for. -/
def decode (word : Nat) : Datum :=
  let negative := word / f.signWord % 2 == 1
  let field := word / f.fractions % f.exponents
  let fraction := word % f.fractions
  if field = f.exponents - 1 then
    if fraction = 0 then .infinity negative else .nan
  else if field = 0 then .finite negative fraction f.leastExponent
  else .finite negative (f.fractions + fraction) (f.leastExponent + (field - 1 : Nat))

/-- The power of two `2 ^ e`, as a numerator and a denominator. -/
def power (e : Int) : Nat × Nat := (twoTo e.toNat, twoTo (-e).toNat)

/-- The greatest `e` with `2 ^ e ≤ n / d`, for positive `n` and `d`. -/
def floorLog (n d : Nat) : Int :=
  let e : Int := (n.log2 : Int) - d.log2
  let (p, q) := power e
  if d * p ≤ n * q then e else e - 1

/-- The word, without a sign, that is nearest to `n / d`. -/
def nearestMagnitude (n d : Nat) : Nat :=
  if n = 0 then 0
  else
    let e := max (floorLog n d - (f.precision - 1 : Nat)) f.leastExponent
    let (p, q) := power e
    let m := roundHalfEven (n * q) (d * p)
    min ((e - f.leastExponent).toNat * f.fractions + m) f.infinityWord

/-- The word that is nearest to the signed quotient `n / d`. -/
def nearest (negative : Bool) (n d : Nat) : Nat :=
  f.nearestMagnitude n d + if negative then f.signWord else 0

end Format

/-- The datum of a double. -/
def datum (x : Float) : Datum := binary64.decode x.toBits.toNat

/-- The datum of a float. -/
def datum32 (x : Float32) : Datum := binary32.decode x.toBits.toNat

/-- The double nearest to a quotient. -/
def ofRatio (negative : Bool) (n d : Nat) : Float :=
  Float.ofBits (UInt64.ofNat (binary64.nearest negative n d))

/-- The double nearest to an integer. -/
def ofInt (i : Int) : Float := ofRatio (i < 0) i.natAbs 1

/-- The float nearest to an integer. -/
def ofInt32 (i : Int) : Float32 :=
  Float32.ofBits (UInt32.ofNat (binary32.nearest (i < 0) i.natAbs 1))

/-- Not a number. -/
def nan : Float := Float.ofBits 0x7ff8000000000000

/-- An infinity. -/
def infinity (negative : Bool) : Float :=
  Float.ofBits (if negative then 0xfff0000000000000 else 0x7ff0000000000000)

/-- The integer part of a finite datum, toward zero. -/
def Datum.trunc? : Datum → Option Int
  | .finite negative m e =>
    let (p, q) := Format.power e
    let i : Int := (m * p / q : Nat)
    some (if negative then -i else i)
  | _ => none

/-- The remainder of `x` divided by `y` toward zero. It is exact and has the sign of `x`; it is not
a number if `x` is infinite or `y` is zero. -/
def remainder (x y : Float) : Float :=
  match datum x, datum y with
  | .finite _ _ _, .infinity _ => x
  | .finite negative m e, .finite _ m' e' =>
    if m' = 0 then nan
    else
      let least := min e e'
      let a := m * twoTo (e - least).toNat
      let b := m' * twoTo (e' - least).toNat
      let (p, q) := Format.power least
      ofRatio negative (a % b * p) q
  | _, _ => nan

end LazyXPath.Binary
