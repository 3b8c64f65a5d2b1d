import LazyXPath.Operator.Temporal

/-!
# Resolution of operators

An operator is resolved for the types of its operands, without looking at values: the outcome is a
**rule**, or an error if the operator is not defined for the types. A rule is then applied to values.
Untyped operands count as doubles in arithmetic, where the cast happens when the rule is applied, and
as strings in comparisons.
-/

namespace LazyXPath

/-! ### Arithmetic -/

/-- The rules of binary arithmetic. -/
inductive ArithmeticRule where
  /-- Arithmetic on numbers of the given kind. -/
  | numeric (op : ArithmeticOp) (kind : NumericKind)
  /-- Sum or difference of durations. -/
  | sum (kind : DurationKind) (subtract : Bool)
  /-- Ratio of durations. -/
  | ratio (kind : DurationKind)
  /-- A duration multiplied or divided by the number after it. -/
  | scale (kind : DurationKind) (divide : Bool)
  /-- A duration multiplied by the number before it. -/
  | multiple (kind : DurationKind)
  /-- The time between two points in time. -/
  | difference
  /-- A point in time shifted by the duration after it. -/
  | shift (backward : Bool)
  /-- A point in time shifted by the duration before it. -/
  | shiftBy
deriving DecidableEq

namespace ArithmeticRule

/-- The sum or difference of two durations. -/
def durationSum (kind : DurationKind) (subtract : Bool) (a b : Atomic) : Except Error Atomic :=
  match kind with
  | .yearMonth => do
    let x ← a.months
    let y ← b.months
    return .yearMonthDuration (← Atomic.checkedMonths (if subtract then x - y else x + y))
  | .dayTime => do
    let x ← a.seconds
    let y ← b.seconds
    return .dayTimeDuration (← Atomic.checkedSeconds (if subtract then x.sub? y else x.add? y))

/-- The ratio of two durations. -/
def durationRatio (kind : DurationKind) (a b : Atomic) : Except Error Atomic :=
  match kind with
  | .yearMonth => do
    let y ← b.months
    if y = 0 then .error .divisionByZero
    let x ← a.months
    let q ← orOverflow do (← Decimal.ofInt? x).div? (← Decimal.ofInt? y)
    return .decimal q
  | .dayTime => do
    let y ← b.seconds
    if y.isZero then .error .divisionByZero
    let x ← a.seconds
    return .decimal (← orOverflow (x.div? y))

/-- Applies a rule to values. -/
def apply (rule : ArithmeticRule) (a b : Atomic) : Except Error Atomic :=
  match rule with
  | numeric op kind => do
    let x ← a.typed
    let y ← b.typed
    op.onOperands (← Operands.promote kind x y)
  | sum kind subtract => durationSum kind subtract a b
  | ratio kind => durationRatio kind a b
  | scale kind divide => a.scale kind b divide
  | multiple kind => b.scale kind a false
  | difference => a.difference b
  | shift backward => a.shift b backward
  | shiftBy => b.shift a false

/-- The rule for numbers of two kinds; the quotient of integers is a decimal. -/
def ofKinds (op : ArithmeticOp) (l r : NumericKind) : ArithmeticRule :=
  let kind := l.join r
  numeric op (if op = .div ∧ kind = .integer then .decimal else kind)

/-- The rule for two durations of one kind. -/
def ofDurations? (op : ArithmeticOp) (kind : DurationKind) : Option ArithmeticRule :=
  match op with
  | .add => some (sum kind false)
  | .sub => some (sum kind true)
  | .div => some (ratio kind)
  | _ => none

/-- Whether a point in time of a kind can be shifted by a duration of a kind. -/
def canShift (t : TemporalKind) (d : DurationKind) : Bool := !(t == .time && d == .yearMonth)

/-- The rule for types that are not both numeric. -/
def ofTypes? (op : ArithmeticOp) (l r : ItemType) : Option ArithmeticRule :=
  let numericLeft := (NumericKind.ofType? l).isSome
  let numericRight := (NumericKind.ofType? r).isSome
  match DurationKind.ofType? l, DurationKind.ofType? r,
      TemporalKind.ofType? l, TemporalKind.ofType? r with
  | some k, some k', _, _ => if k = k' then ofDurations? op k else none
  | some k, none, _, t =>
    if numericRight && op == .mul then some (scale k false)
    else if numericRight && op == .div then some (scale k true)
    else if op == .add && t.any (canShift · k) then some shiftBy
    else none
  | none, some k, t, _ =>
    if numericLeft && op == .mul then some (multiple k)
    else if op == .add && t.any (canShift · k) then some (shift false)
    else if op == .sub && t.any (canShift · k) then some (shift true)
    else none
  | none, none, some t, some t' => if t = t' && op == .sub then some difference else none
  | none, none, _, _ => none

/-- Untyped operands count as doubles. -/
def operandType (t : ItemType) : ItemType := if t = .untypedAtomic then .double else t

/-- The rule of an operator for operands of the given types. -/
def resolve (op : ArithmeticOp) (left right : ItemType) : Except Error ArithmeticRule :=
  let l := operandType left
  let r := operandType right
  match NumericKind.ofType? l, NumericKind.ofType? r with
  | some lk, some rk => .ok (ofKinds op lk rk)
  | _, _ =>
    match ofTypes? op l r with
    | some rule => .ok rule
    | none => .error (.noOperator op.symbol left right)

end ArithmeticRule

/-! ### Signs -/

/-- The rules of signs. Anything that is not numeric gives not a number. -/
inductive UnaryRule where
  | notANumber
  | keep
  | negate (kind : NumericKind)
deriving DecidableEq

namespace UnaryRule

/-- Applies a rule to a value. -/
def apply (rule : UnaryRule) (v : Atomic) : Except Error Atomic :=
  match rule with
  | notANumber => .ok (.double Binary.nan)
  | keep => v.typed
  | negate kind => do (← v.typed).negated kind

/-- The rule of a sign for an operand of the given type. -/
def resolve (op : UnaryOp) (t : ItemType) : UnaryRule :=
  match NumericKind.ofType? (ArithmeticRule.operandType t), op with
  | none, _ => notANumber
  | some _, .plus => keep
  | some kind, .minus => negate kind

end UnaryRule

/-! ### Comparison -/

/-- What a comparison looks at. -/
inductive ComparisonBasis where
  | numbers (kind : NumericKind)
  | texts
  | booleans
  | instants
  | durations (kind : DurationKind)
  /-- Durations of different kinds are equal if both are zero. -/
  | zeroDurations
  | qnames
  /-- Values of one type that are equal if they are identical. -/
  | identity
deriving DecidableEq

/-- The rules of comparison. -/
structure ComparisonRule where
  op : ComparisonOp
  basis : ComparisonBasis
deriving DecidableEq

/-- The order of two truth values, false first. -/
def compareBooleans : Bool → Bool → Ordering
  | false, true => .lt
  | true, false => .gt
  | _, _ => .eq

/-- The order of two texts by code points. -/
def compareTexts (a b : String) : Ordering := if a < b then .lt else if b < a then .gt else .eq

namespace ComparisonBasis

/-- Equality as an order that nothing else is known of. -/
def onlyEqual (b : Bool) : Option Ordering := if b then some .eq else none

/-- The order of two values, if they have one. -/
def order (basis : ComparisonBasis) (a b : Atomic) : Except Error (Option Ordering) :=
  match basis with
  | numbers kind => return (← Operands.promote kind a b).compare
  | texts => .ok (some (compareTexts (a.text?.getD "") (b.text?.getD "")))
  | booleans =>
    match a, b with
    | .boolean x, .boolean y => .ok (some (compareBooleans x y))
    | _, _ => a.unexpected
  | instants => do
    let s ← a.universal
    let t ← b.universal
    return some (compare s.instant t.instant)
  | durations .yearMonth => do
    let x ← a.months
    let y ← b.months
    return some (compare x y)
  | durations .dayTime => do
    let x ← a.seconds
    let y ← b.seconds
    return some (x.compare y)
  | zeroDurations => .ok (onlyEqual (a.isZeroDuration && b.isZeroDuration))
  | qnames =>
    match a, b with
    | .qname s _ l, .qname s' _ l' => .ok (onlyEqual (s == s' && l == l'))
    | _, _ => a.unexpected
  | identity => .ok (onlyEqual (a.identical b))

end ComparisonBasis

namespace ComparisonRule

/-- Applies a rule to values. -/
def apply (rule : ComparisonRule) (a b : Atomic) : Except Error Bool :=
  return rule.op.holds (← rule.basis.order a b)

/-- Untyped operands and URIs count as strings. -/
def operandType : ItemType → ItemType
  | .untypedAtomic | .anyUri => .string
  | t => t

/-- The types that are compared by identity. -/
def isIdentityType : ItemType → Bool
  | .gYear | .gYearMonth | .gMonth | .gMonthDay | .gDay | .hexBinary | .base64Binary => true
  | _ => false

/-- What values of the given types are compared by. -/
def basis? (op : ComparisonOp) (l r : ItemType) : Option ComparisonBasis :=
  match NumericKind.ofType? l, NumericKind.ofType? r with
  | some lk, some rk => some (.numbers (lk.join rk))
  | _, _ =>
    if l.isStringLike && r.isStringLike then some .texts
    else if l = .boolean && r = .boolean then some .booleans
    else if (TemporalKind.ofType? l).isSome && TemporalKind.ofType? l == TemporalKind.ofType? r then
      some .instants
    else
      match DurationKind.ofType? l, DurationKind.ofType? r with
      | some k, some k' =>
        if k = k' then some (.durations k) else if op.isEquality then some .zeroDurations else none
      | _, _ =>
        if l = r && op.isEquality then
          if l = .qname then some .qnames
          else if isIdentityType l then some .identity
          else none
        else none

/-- The rule of a comparison for operands of the given types. -/
def resolve (op : ComparisonOp) (left right : ItemType) : Except Error ComparisonRule :=
  match basis? op (operandType left) (operandType right) with
  | some basis => .ok ⟨op, basis⟩
  | none => .error (.notComparable op.symbol left right)

end ComparisonRule

end LazyXPath
