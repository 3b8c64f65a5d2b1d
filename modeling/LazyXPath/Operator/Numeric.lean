import LazyXPath.Decimal.Remainder
import LazyXPath.Operator.Basic

/-!
# Arithmetic on numbers

Integer arithmetic is on signed 64-bit integers, and a result outside their range is an overflow.
Decimal arithmetic overflows if the result does not fit. Floating-point arithmetic never fails,
except for the integer quotient; floats are computed as doubles and rounded once more.
-/

namespace LazyXPath

/-- A result if there is one, an overflow otherwise. -/
def orOverflow {α : Type} : Option α → Except Error α
  | some a => .ok a
  | none => .error .numericOverflow

/-- An integer that has to be a signed 64-bit number. -/
def checkedLong (i : Int) : Except Error Int :=
  if Calendar.fitsLong i then .ok i else .error .numericOverflow

namespace ArithmeticOp

/-- Arithmetic on decimals. -/
def onDecimals (op : ArithmeticOp) (a b : Decimal) : Except Error Atomic :=
  match op with
  | add => return .decimal (← orOverflow (a.add? b))
  | sub => return .decimal (← orOverflow (a.sub? b))
  | mul => return .decimal (← orOverflow (a.mul? b))
  | div =>
    if b.isZero then .error .divisionByZero
    else return .decimal (← orOverflow (a.div? b))
  | mod =>
    if b.isZero then .error .divisionByZero
    else return .decimal (← orOverflow (a.rem? b))
  | idiv =>
    if b.isZero then .error .divisionByZero
    else do
      let q ← orOverflow (a.div? b)
      return .ofInt (← checkedLong q.toInt)

/-- Arithmetic on integers. The quotient by `-1` of the least integer overflows, and so does the
remainder. -/
def onIntegers (op : ArithmeticOp) (a b : Int) : Except Error Atomic :=
  match op with
  | add => return .ofInt (← checkedLong (a + b))
  | sub => return .ofInt (← checkedLong (a - b))
  | mul => return .ofInt (← checkedLong (a * b))
  | idiv =>
    if b = 0 then .error .divisionByZero else return .ofInt (← checkedLong (a.tdiv b))
  | mod =>
    if b = 0 then .error .divisionByZero
    else do
      let _ ← checkedLong (a.tdiv b)
      return .ofInt (a.tmod b)
  | div => do
    op.onDecimals (← orOverflow (Decimal.ofInt? a)) (← orOverflow (Decimal.ofInt? b))

/-- Arithmetic on doubles other than the integer quotient. -/
def doubleResult (op : ArithmeticOp) (a b : Float) : Float :=
  match op with
  | add => a + b
  | sub => a - b
  | mul => a * b
  | div => a / b
  | mod | idiv => Binary.remainder a b

/-- The integer quotient of doubles. -/
def doubleQuotient (a b : Float) : Except Error Int :=
  if b == 0.0 then .error .divisionByZero
  else if a.isNaN || b.isNaN || a.isInf then .error .integerQuotientUndefined
  else if b.isInf then .ok 0
  else
    match (Binary.datum (a / b)).trunc? with
    -- the greatest double below the bound counts as outside
    | some q => if q.natAbs < twoTo 63 - 1024 then .ok q else .error .numericOverflow
    | none => .error .numericOverflow

/-- Arithmetic on doubles. -/
def onDoubles (op : ArithmeticOp) (a b : Float) : Except Error Atomic :=
  if op = idiv then return .ofInt (← doubleQuotient a b)
  else .ok (.double (op.doubleResult a b))

/-- Arithmetic on floats. -/
def onFloats (op : ArithmeticOp) (a b : Float32) : Except Error Atomic :=
  if op = idiv then return .ofInt (← doubleQuotient a.toFloat b.toFloat)
  else .ok (.float (op.doubleResult a.toFloat b.toFloat).toFloat32)

/-- Arithmetic on two numbers of one kind. -/
def onOperands (op : ArithmeticOp) : Operands → Except Error Atomic
  | .integers a b => op.onIntegers a b
  | .decimals a b => op.onDecimals a b
  | .floats a b => op.onFloats a b
  | .doubles a b => op.onDoubles a b

end ArithmeticOp

/-- The order of two doubles, if they have one. -/
def compareDoubles (a b : Float) : Option Ordering :=
  if a < b then some .lt else if a == b then some .eq else if b < a then some .gt else none

/-- The order of two floats, if they have one. -/
def compareFloats (a b : Float32) : Option Ordering :=
  if a < b then some .lt else if a == b then some .eq else if b < a then some .gt else none

/-- The order of two numbers of one kind, if they have one. -/
def Operands.compare : Operands → Option Ordering
  | .integers a b => some (Ord.compare a b)
  | .decimals a b => some (a.compare b)
  | .floats a b => compareFloats a b
  | .doubles a b => compareDoubles a b

/-- The number with the opposite sign. -/
def Atomic.negated (kind : NumericKind) (v : Atomic) : Except Error Atomic :=
  match kind with
  | .integer => do return .ofInt (← checkedLong (-(← v.promoteInteger)))
  | .decimal => return .decimal (-(← v.promoteDecimal))
  | .float => return .float (-(← v.promoteFloat))
  | .double => return .double (-(← v.promoteDouble))

end LazyXPath
