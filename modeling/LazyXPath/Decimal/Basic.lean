import LazyXPath.Power

/-!
# Fixed-precision decimals

A **decimal** is an integer coefficient of fewer than 96 bits together with a scale of at most 28:
its value is `coefficient / 10 ^ scale`. Several decimals have the same value, and comparison is by
value. A zero may carry a minus sign, which neither comparison nor text shows: it decides which of
the two zeros a floating-point number becomes.

`Decimal.fit?` takes an exact fraction and gives the nearest decimal, a tie going to the even
coefficient, with the largest scale at which the coefficient still fits. It fails only if not even
the integer part fits.
-/

namespace LazyXPath

/-- The quotient rounded to the nearest natural number; a tie goes to the even one. -/
def roundHalfEven (n d : Nat) : Nat :=
  let q := n / d
  let r := n % d
  if 2 * r < d then q
  else if d < 2 * r then q + 1
  else if q % 2 = 0 then q else q + 1

/-- A coefficient of fewer than 96 bits with at most 28 decimal places. -/
structure Decimal where
  coefficient : Int
  scale : Nat
  coefficient_lt : coefficient.natAbs < twoTo 96
  scale_le : scale ≤ 28
  /-- Whether this is a zero with a minus sign. -/
  minusZero : Bool := false
  minusZero_zero : minusZero = true → coefficient = 0 := by simp
deriving DecidableEq

namespace Decimal

/-- Coefficients stay below this bound. -/
abbrev limit : Nat := twoTo 96

/-- Scales reach up to this one. -/
abbrev maxScale : Nat := 28

/-- The decimal with the given coefficient and scale, if both are in range. -/
def mk? (coefficient : Int) (scale : Nat) : Option Decimal :=
  if h : coefficient.natAbs < limit ∧ scale ≤ maxScale then
    some { coefficient, scale, coefficient_lt := h.1, scale_le := h.2 }
  else none

/-- The decimal `0`. -/
def zero : Decimal where
  coefficient := 0
  scale := 0
  coefficient_lt := by decide
  scale_le := by decide

instance : Inhabited Decimal := ⟨zero⟩

/-- The decimal equal to an integer. -/
def ofInt? (i : Int) : Option Decimal := mk? i 0

/-- Whether the value is zero. -/
def isZero (d : Decimal) : Bool := d.coefficient == 0

/-- Whether the value is below zero. -/
def isNegative (d : Decimal) : Bool := d.coefficient < 0

/-- The value with the opposite sign, of a zero too. -/
def neg (d : Decimal) : Decimal where
  coefficient := -d.coefficient
  scale := d.scale
  coefficient_lt := by rw [Int.natAbs_neg]; exact d.coefficient_lt
  scale_le := d.scale_le
  minusZero := d.isZero && !d.minusZero
  minusZero_zero := by simp +contextual [isZero]

instance : Neg Decimal := ⟨neg⟩

/-- The absolute value. -/
def abs (d : Decimal) : Decimal where
  coefficient := d.coefficient.natAbs
  scale := d.scale
  coefficient_lt := by rw [Int.natAbs_natCast]; exact d.coefficient_lt
  scale_le := d.scale_le

/-- The integer part, toward zero. -/
def toInt (d : Decimal) : Int := d.coefficient.tdiv (tenTo d.scale : Int)

/-- The decimal without its fractional places. -/
def trunc (d : Decimal) : Decimal where
  coefficient := d.toInt
  scale := 0
  coefficient_lt := by
    have h : d.toInt.natAbs ≤ d.coefficient.natAbs := by
      rw [toInt, Int.natAbs_tdiv]
      exact Nat.div_le_self _ _
    exact Nat.lt_of_le_of_lt h d.coefficient_lt
  scale_le := Nat.zero_le _

/-- The order of the values. -/
def compare (a b : Decimal) : Ordering :=
  Ord.compare (a.coefficient * (tenTo b.scale : Int))
    (b.coefficient * (tenTo a.scale : Int))

/-- Equality of the values. -/
def sameValue (a b : Decimal) : Bool := a.compare b == .eq

/-! ### Dropping trailing zeros -/

/-- Divides by ten as long as that is exact and the scale is positive. -/
def dropZeros : Nat → Int → Int × Nat
  | 0, c => (c, 0)
  | s + 1, c => if c % 10 = 0 then dropZeros s (c / 10) else (c, s + 1)

/-- Dropping zeros enlarges neither the coefficient nor the scale. -/
theorem dropZeros_le (s : Nat) (c : Int) :
    (dropZeros s c).1.natAbs ≤ c.natAbs ∧ (dropZeros s c).2 ≤ s := by
  induction s generalizing c with
  | zero => exact ⟨Nat.le_refl _, Nat.le_refl _⟩
  | succ s ih =>
    unfold dropZeros
    split
    · have h := ih (c / 10)
      refine ⟨Nat.le_trans h.1 ?_, Nat.le_succ_of_le h.2⟩
      omega
    · exact ⟨Nat.le_refl _, Nat.le_refl _⟩

/-- The same value with the smallest scale. -/
def normalize (d : Decimal) : Decimal where
  coefficient := (dropZeros d.scale d.coefficient).1
  scale := (dropZeros d.scale d.coefficient).2
  coefficient_lt := Nat.lt_of_le_of_lt (dropZeros_le _ _).1 d.coefficient_lt
  scale_le := Nat.le_trans (dropZeros_le _ _).2 d.scale_le

/-! ### Fitting exact results -/

/-- The coefficient of `n / d` at a scale, rounded half to even. -/
def coefficientAt (n : Int) (d scale : Nat) : Int :=
  n.sign * (roundHalfEven (n.natAbs * tenTo scale) d : Nat)

/-- The decimal nearest to `n / d`, with the largest scale up to the given one at which the
coefficient fits. -/
def fit? (n : Int) (d : Nat) : Nat → Option Decimal
  | 0 => mk? (coefficientAt n d 0) 0
  | s + 1 =>
    match mk? (coefficientAt n d (s + 1)) (s + 1) with
    | some r => some r
    | none => fit? n d s

/-- The coefficient that a decimal has at a scale not below its own. -/
def scaledTo (a : Decimal) (s : Nat) : Int := a.coefficient * (tenTo (s - a.scale) : Int)

end Decimal

end LazyXPath
