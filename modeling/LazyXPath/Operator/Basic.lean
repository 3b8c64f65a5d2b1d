import LazyXPath.Atomic.Cast

/-!
# Operators and numeric promotion

The operators on atomic values, and the ladder of numeric kinds along which operands are promoted:
integer, decimal, float, double. Two operands are promoted to the higher of their kinds
(`Operands.promote`), after which they are of one kind.
-/

namespace LazyXPath

/-- Binary arithmetic operators. -/
inductive ArithmeticOp where
  | add
  | sub
  | mul
  | div
  | idiv
  | mod
deriving DecidableEq, Inhabited

/-- The spelling of an arithmetic operator. -/
def ArithmeticOp.symbol : ArithmeticOp → String
  | add => "+"
  | sub => "-"
  | mul => "*"
  | div => "div"
  | idiv => "idiv"
  | mod => "mod"

/-- Signs in front of an operand. -/
inductive UnaryOp where
  | plus
  | minus
deriving DecidableEq, Inhabited

/-- Value comparisons. -/
inductive ComparisonOp where
  | eq
  | ne
  | lt
  | le
  | gt
  | ge
deriving DecidableEq, Inhabited

namespace ComparisonOp

/-- The spelling of a comparison. -/
def symbol : ComparisonOp → String
  | eq => "eq"
  | ne => "ne"
  | lt => "lt"
  | le => "le"
  | gt => "gt"
  | ge => "ge"

/-- Whether a comparison holds of two values in the given order. Values without an order are unequal
and nothing else. -/
def holds : ComparisonOp → Option Ordering → Bool
  | eq, o => o == some .eq
  | ne, o => o != some .eq
  | lt, o => o == some .lt
  | le, o => o == some .lt || o == some .eq
  | gt, o => o == some .gt
  | ge, o => o == some .gt || o == some .eq

/-- Whether a comparison asks for equality only. -/
def isEquality : ComparisonOp → Bool
  | eq | ne => true
  | _ => false

end ComparisonOp

/-! ### Numeric kinds -/

/-- The steps of the promotion ladder, from the bottom up. -/
inductive NumericKind where
  | integer
  | decimal
  | float
  | double
deriving DecidableEq, Inhabited

namespace NumericKind

/-- The height on the ladder. -/
def rank : NumericKind → Nat
  | integer => 0
  | decimal => 1
  | float => 2
  | double => 3

/-- The higher of two kinds. -/
def join (a b : NumericKind) : NumericKind := if a.rank ≤ b.rank then b else a

/-- The kind of a numeric type. -/
def ofType? (t : ItemType) : Option NumericKind :=
  if t.isSubtypeOf .integer then some integer
  else if t.isSubtypeOf .decimal then some decimal
  else if t.isSubtypeOf .float then some float
  else if t.isSubtypeOf .double then some double
  else none

end NumericKind

namespace Atomic

/-- The value as a signed 64-bit integer. -/
def promoteInteger (v : Atomic) : Except Error Int :=
  match v with
  | integer _ i => if Calendar.fitsLong i then .ok i else .error .numericOverflow
  | _ => .error (.notNumeric v.itemType)

/-- The value as a decimal. -/
def promoteDecimal (v : Atomic) : Except Error Decimal :=
  match v with
  | decimal d => .ok d
  | integer _ i =>
    match Decimal.ofInt? i with
    | some d => .ok d
    | none => .error .numericOverflow
  | _ => .error (.notNumeric v.itemType)

/-- The value as a float. -/
def promoteFloat (v : Atomic) : Except Error Float32 :=
  match v with
  | float x => .ok x
  | decimal d => .ok d.toFloat
  | integer _ i => .ok (Binary.ofInt32 i)
  | _ => .error (.notNumeric v.itemType)

/-- The value as a double. -/
def promoteDouble (v : Atomic) : Except Error Float :=
  match v with
  | double x => .ok x
  | float x => .ok x.toFloat
  | decimal d => .ok d.toDouble
  | integer _ i => .ok (Binary.ofInt i)
  | _ => .error (.notNumeric v.itemType)

/-- An untyped value as a double; every other value as it is. -/
def typed (v : Atomic) : Except Error Atomic :=
  match v with
  | text .untypedAtomic _ => v.cast .double
  | _ => .ok v

end Atomic

/-- Two numbers of one kind. -/
inductive Operands where
  | integers (a b : Int)
  | decimals (a b : Decimal)
  | floats (a b : Float32)
  | doubles (a b : Float)

/-- Both values as numbers of the given kind. -/
def Operands.promote (kind : NumericKind) (a b : Atomic) : Except Error Operands :=
  match kind with
  | .integer => return .integers (← a.promoteInteger) (← b.promoteInteger)
  | .decimal => return .decimals (← a.promoteDecimal) (← b.promoteDecimal)
  | .float => return .floats (← a.promoteFloat) (← b.promoteFloat)
  | .double => return .doubles (← a.promoteDouble) (← b.promoteDouble)

end LazyXPath
