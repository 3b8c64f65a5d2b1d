import LazyXPath.Decimal.Basic

/-!
# Remainders of decimals

The remainder of the division toward zero has the sign of the dividend and the larger one of the two
scales. It is the exact one, with a reservation for divisors of three words: they are divided by in
long division, one word of 32 bits at a time (`longRemainder`), where each word of the quotient is
read off the leading words. That word would be too large if the leading words of remainder and
divisor were equal; in that case the leading word of the remainder is lost.
-/

namespace LazyXPath

/-- Brings down the word `w` behind the remainder `r` of a long division by `d`, a number of 96 bits. -/
def bringDown (d r w : Nat) : Nat :=
  let n := r * twoTo 32 + w
  (if r / twoTo 64 = d / twoTo 64 then n % twoTo 96 else n) % d

/-- The long division of the last words of `n`, as many as given, behind the remainder `r`. -/
def longRemainder (n d : Nat) : Nat → Nat → Nat
  | 0, r => r
  | k + 1, r => longRemainder n d k (bringDown d r (n / twoTo (32 * k) % twoTo 32))

/-- The remainder of `n` by `d`. A divisor of three words is shifted to fill them, and the dividend,
of at most seven words then, along with it. -/
def wordRemainder (n d : Nat) : Nat :=
  if d < twoTo 64 then n % d
  else
    let shift := twoTo (95 - d.log2)
    longRemainder (n * shift) (d * shift) 7 0 / shift

namespace Decimal

/-- The remainder, if the divisor is not zero. A dividend that is smaller than the divisor is its own
remainder. -/
def rem? (a b : Decimal) : Option Decimal :=
  if b.isZero then none
  else if a.isZero || a.abs.sameValue b.abs then some zero
  else if a.abs.compare b.abs == .lt then some a
  else
    let s := max a.scale b.scale
    mk? (a.coefficient.sign * wordRemainder (a.scaledTo s).natAbs (b.scaledTo s).natAbs) s

end Decimal

end LazyXPath
