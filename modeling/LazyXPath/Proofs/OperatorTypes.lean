import LazyXPath.Operator.Resolve

/-!
# Types of operators

An operator is resolved for types and applied to values. Values of the types that it was resolved for are
never refused: the rule fails only because a result is out of range or undefined, or because an untyped
operand is no number (`OperatorFailure`). And the type of what arithmetic gives can be told from the
operator and the types of the operands (`resultType?`).

* `Meets` says of an attempt both how it may fail and what its result is like. Every helper that looks
  into a value meets its conditions on the values that it is meant for.
* `Resolution` lists the ways in which an arithmetic operator is resolved, with what the types are then.
-/

namespace LazyXPath

/-! ### Attempts -/

/-- An attempt that fails only in certain ways, and whose result has a property. -/
def Meets {α : Type} (P : Error → Prop) (Q : α → Prop) : Except Error α → Prop
  | .ok a => Q a
  | .error e => P e

namespace Meets

variable {α β : Type} {P : Error → Prop} {Q Q' : α → Prop} {R : β → Prop} {x : Except Error α}
  {f : α → Except Error β}

/-- Attempts in a row: each failure is one of those allowed, and the second attempt starts from a result with
the first property. -/
private theorem bind (hx : Meets P Q x) (hf : ∀ a, Q a → Meets P R (f a)) : Meets P R (x >>= f) := by
  cases x with
  | ok a => exact hf a hx
  | error e => exact hx

private theorem mono (hx : Meets P Q x) (h : ∀ a, Q a → Q' a) : Meets P Q' x := by
  cases x with
  | ok a => exact h a hx
  | error e => exact hx

/-- Read off an attempt that has failed. -/
theorem of_error {e : Error} (hx : Meets P Q x) (h : x = .error e) : P e := by
  subst h
  exact hx

/-- Read off an attempt that has succeeded. -/
theorem of_ok {a : α} (hx : Meets P Q x) (h : x = .ok a) : Q a := by
  subst h
  exact hx

end Meets

/-! ### Failures -/

/-- The codes with which operators fail: division by zero, overflow of a number, a point in time out of
range, a duration out of range, and a factor that is not a number. -/
def operatorCodes : List ErrorCode := [.FOAR0001, .FOAR0002, .FODT0001, .FODT0002, .FOCA0005]

/-- The failures of an operator on operands of the given types. An untyped operand may be no number. -/
def OperatorFailure (types : List ItemType) (e : Error) : Prop :=
  (∃ c ∈ operatorCodes, e.code = c.name) ∨
    ItemType.untypedAtomic ∈ types ∧ e.code = ErrorCode.FORG0001.name

section

variable {ts : List ItemType}

/-- An error whose code is among those of operators is a failure of an operator, whatever the operands are.
-/
private theorem OperatorFailure.of_kind {e : Error} (hc : e.code = e.kind.name) (hk : e.kind ∈ operatorCodes) :
    OperatorFailure ts e :=
  .inl ⟨e.kind, hk, hc⟩

private theorem failure_numericOverflow : OperatorFailure ts .numericOverflow := .of_kind rfl (by decide)

private theorem failure_divisionByZero : OperatorFailure ts .divisionByZero := .of_kind rfl (by decide)

private theorem failure_durationOutOfRange : OperatorFailure ts .durationOutOfRange := .of_kind rfl (by decide)

/-- The text of a code determines it. -/
private theorem ErrorCode.ofText_text (c : ErrorCode) : ofText c.text = c := by
  cases c <;> decide

/-- So does its name. -/
private theorem ErrorCode.name_injective {c c' : ErrorCode} (h : c.name = c'.name) : c = c' := by
  have htext : c.text = c'.text := congrArg Name.localPart h
  rw [← c.ofText_text, htext, c'.ofText_text]

/-- Every other code is not the one of a failure. -/
theorem OperatorFailure.code_ne {e : Error} (h : OperatorFailure ts e) {c : ErrorCode}
    (hc : c ∉ operatorCodes) (hf : c ≠ .FORG0001) : e.code ≠ c.name := by
  intro hcode
  obtain ⟨c', hc', he⟩ | ⟨-, he⟩ := h
  · exact hc (ErrorCode.name_injective (he.symm.trans hcode) ▸ hc')
  · exact hf (ErrorCode.name_injective (he.symm.trans hcode)).symm

end

/-! ### Numbers -/

/-- The type of the numbers of a kind. -/
def NumericKind.itemType : NumericKind → ItemType
  | integer => .integer
  | decimal => .decimal
  | float => .float
  | double => .double

/-- The kind of two numbers. -/
def Operands.kind : Operands → NumericKind
  | integers .. => .integer
  | decimals .. => .decimal
  | floats .. => .float
  | doubles .. => .double

/-- The kind of a number. -/
def Atomic.numericKind? : Atomic → Option NumericKind
  | integer .. => some .integer
  | decimal _ => some .decimal
  | float _ => some .float
  | double _ => some .double
  | _ => none

/-- The kind of numbers that operands of a type are counted as. -/
def operandKind? (t : ItemType) : Option NumericKind := NumericKind.ofType? (ArithmeticRule.operandType t)

section

variable {ts : List ItemType} {k lk rk kind : NumericKind} {v a b : Atomic} {P : Error → Prop}

/-- Whether a value is a number can be told from its type. -/
theorem Atomic.ofType?_itemType (v : Atomic) : NumericKind.ofType? v.itemType = v.numericKind? := by
  cases v with
  | text t => cases t <;> rfl
  | integer t => cases t <;> rfl
  | _ => rfl

/-- A number of a kind that is at most an integer is promoted to one, or overflows. -/
theorem promoteInteger_meets (hP : P .numericOverflow) (h : v.numericKind? = some k)
    (hk : k.rank ≤ NumericKind.integer.rank) : Meets P (fun _ => True) v.promoteInteger := by
  cases v <;> cases h <;> try exact absurd hk (by decide)
  unfold Atomic.promoteInteger
  dsimp only
  split
  · trivial
  · exact hP

/-- Likewise for decimals, which integers may be too large for. -/
theorem promoteDecimal_meets (hP : P .numericOverflow) (h : v.numericKind? = some k)
    (hk : k.rank ≤ NumericKind.decimal.rank) : Meets P (fun _ => True) v.promoteDecimal := by
  cases v <;> cases h <;> try exact absurd hk (by decide)
  · unfold Atomic.promoteDecimal
    dsimp only
    split
    · trivial
    · exact hP
  · trivial

/-- Promotion to floats does not fail: numbers are rounded. -/
theorem promoteFloat_meets (h : v.numericKind? = some k) (hk : k.rank ≤ NumericKind.float.rank) :
    Meets P (fun _ => True) v.promoteFloat := by
  cases v <;> cases h <;> trivial

/-- Nor does promotion to doubles. -/
theorem promoteDouble_meets (h : v.numericKind? = some k) : Meets P (fun _ => True) v.promoteDouble := by
  cases v <;> cases h <;> trivial

/-- Numbers are promoted to every kind that is not below their own. -/
theorem Operands.promote_meets (ha : a.numericKind? = some lk) (hb : b.numericKind? = some rk)
    (hl : lk.rank ≤ kind.rank) (hr : rk.rank ≤ kind.rank) :
    Meets (OperatorFailure ts) (·.kind = kind) (promote kind a b) := by
  cases kind with
  | integer =>
    exact (promoteInteger_meets failure_numericOverflow ha hl).bind fun _ _ =>
      (promoteInteger_meets failure_numericOverflow hb hr).bind fun _ _ => rfl
  | decimal =>
    exact (promoteDecimal_meets failure_numericOverflow ha hl).bind fun _ _ =>
      (promoteDecimal_meets failure_numericOverflow hb hr).bind fun _ _ => rfl
  | float => exact (promoteFloat_meets ha hl).bind fun _ _ => (promoteFloat_meets hb hr).bind fun _ _ => rfl
  | double => exact (promoteDouble_meets ha).bind fun _ _ => (promoteDouble_meets hb).bind fun _ _ => rfl

private theorem orOverflow_meets {α : Type} (x : Option α) :
    Meets (OperatorFailure ts) (fun _ => True) (orOverflow x) := by
  cases x with
  | some => trivial
  | none => exact failure_numericOverflow

private theorem checkedLong_meets (i : Int) : Meets (OperatorFailure ts) (fun _ => True) (checkedLong i) := by
  unfold checkedLong
  split
  · trivial
  · exact failure_numericOverflow

/-- The type of the result of arithmetic on numbers of a kind. -/
def ArithmeticOp.numericResult (op : ArithmeticOp) (kind : NumericKind) : ItemType :=
  if op = .idiv then .integer else if op = .div ∧ kind = .integer then .decimal else kind.itemType

namespace ArithmeticOp

/-- Arithmetic on decimals divides by zero, overflows or gives a decimal, or an integer for `idiv`. -/
private theorem onDecimals_meets (op : ArithmeticOp) (x y : Decimal) :
    Meets (OperatorFailure ts) (·.itemType = op.numericResult .decimal) (op.onDecimals x y) := by
  unfold onDecimals
  cases op with
  | add | sub | mul => exact (orOverflow_meets _).bind fun _ _ => rfl
  | div | mod =>
    dsimp only
    split
    · exact failure_divisionByZero
    · exact (orOverflow_meets _).bind fun _ _ => rfl
  | idiv =>
    dsimp only
    split
    · exact failure_divisionByZero
    · exact (orOverflow_meets _).bind fun _ _ => (checkedLong_meets _).bind fun _ _ => rfl

/-- Arithmetic on integers divides by zero, overflows or gives an integer, or a decimal for `div`. -/
theorem onIntegers_meets (op : ArithmeticOp) (x y : Int) :
    Meets (OperatorFailure ts) (·.itemType = op.numericResult .integer) (op.onIntegers x y) := by
  unfold onIntegers
  cases op with
  | add | sub | mul => exact (checkedLong_meets _).bind fun _ _ => rfl
  | idiv | mod =>
    dsimp only
    split
    · exact failure_divisionByZero
    · exact (checkedLong_meets _).bind fun _ _ => rfl
  | div =>
    exact (orOverflow_meets _).bind fun _ _ => (orOverflow_meets _).bind fun _ _ => onDecimals_meets .div _ _

/-- Integer division of floating-point numbers fails for a divisor that is zero, and for a quotient that is
undefined or too large. -/
private theorem doubleQuotient_meets (x y : Float) :
    Meets (OperatorFailure ts) (fun _ => True) (doubleQuotient x y) := by
  unfold doubleQuotient
  split
  · exact failure_divisionByZero
  split
  · exact .of_kind rfl (by decide)
  split
  · trivial
  split
  · split
    · trivial
    · exact failure_numericOverflow
  · exact failure_numericOverflow

/-- Arithmetic on floats fails for integer division only. -/
private theorem onFloats_meets (op : ArithmeticOp) (x y : Float32) :
    Meets (OperatorFailure ts) (·.itemType = op.numericResult .float) (op.onFloats x y) := by
  unfold onFloats
  cases op with
  | idiv => exact (doubleQuotient_meets _ _).bind fun _ _ => rfl
  | _ => rfl

/-- Arithmetic on doubles fails for integer division only. -/
private theorem onDoubles_meets (op : ArithmeticOp) (x y : Float) :
    Meets (OperatorFailure ts) (·.itemType = op.numericResult .double) (op.onDoubles x y) := by
  unfold onDoubles
  cases op with
  | idiv => exact (doubleQuotient_meets _ _).bind fun _ _ => rfl
  | _ => rfl

/-- Arithmetic on two numbers of one kind. -/
private theorem onOperands_meets (op : ArithmeticOp) (x : Operands) :
    Meets (OperatorFailure ts) (·.itemType = op.numericResult x.kind) (op.onOperands x) := by
  cases x with
  | integers => exact op.onIntegers_meets _ _
  | decimals => exact op.onDecimals_meets _ _
  | floats => exact op.onFloats_meets _ _
  | doubles => exact op.onDoubles_meets _ _

end ArithmeticOp

/-- How a double is read from a text. -/
private theorem Atomic.ofLexical_double (s : String) : ofLexical s .double =
    match Binary.doubleOfText? (Text.collapse s.toList) with
    | some x => .ok (.double x)
    | none => .error (.invalidLexical .double s) := by
  have htext : TextType.ofItemType? .double = none := by decide
  have hinteger : IntegerType.ofItemType? .double = none := by decide
  have hqname : ItemType.double ≠ .qname := by decide
  simp only [ofLexical, htext, hinteger, if_neg hqname, ofCollapsed?]
  cases Binary.doubleOfText? (Text.collapse s.toList) with
  | some x => rfl
  | none => rfl

/-- An untyped operand is cast by its text. -/
theorem Atomic.typed_untyped (s : String) : (text .untypedAtomic s).typed = ofLexical s .double := by
  have hsource : (text .untypedAtomic s).itemType = .untypedAtomic := rfl
  have hatomic : ItemType.isAtomic .double = true := by decide
  have hinstantiable : ItemType.isInstantiable .double = true := by decide
  simp [typed, cast, hsource, hatomic, hinstantiable, text?]

/-- Only texts are untyped. -/
private theorem Atomic.eq_untyped_of_itemType (h : v.itemType = .untypedAtomic) :
    ∃ s, v = .text .untypedAtomic s := by
  cases v with
  | text t s => cases t <;> first | exact ⟨s, rfl⟩ | cases h
  | integer t => cases t <;> cases h
  | _ => cases h

/-- An untyped operand that is no number. -/
private theorem failure_invalidLexical {s : String} (hv : v.itemType ∈ ts) (h : v.itemType = .untypedAtomic) :
    OperatorFailure ts (.invalidLexical .double s) :=
  .inr ⟨h ▸ hv, rfl⟩

/-- An untyped operand is read as a double, if it is one. -/
theorem typed_meets (hP : v.itemType = .untypedAtomic → ∀ s, P (.invalidLexical .double s))
    (hk : operandKind? v.itemType = some k) : Meets P (·.numericKind? = some k) v.typed := by
  by_cases hu : v.itemType = .untypedAtomic
  · obtain ⟨s, rfl⟩ := Atomic.eq_untyped_of_itemType hu
    cases hk
    rw [Atomic.typed_untyped, Atomic.ofLexical_double]
    split
    · rfl
    · exact hP rfl s
  · have htyped : v.typed = .ok v := by
      unfold Atomic.typed
      split
      · exact absurd rfl hu
      · rfl
    rw [operandKind?, ArithmeticRule.operandType, if_neg hu, Atomic.ofType?_itemType] at hk
    rw [htyped]
    exact hk

end

/-! ### Points in time and durations -/

/-- The type of the durations of a kind. -/
def DurationKind.itemType : DurationKind → ItemType
  | yearMonth => .yearMonthDuration
  | dayTime => .dayTimeDuration

/-- The type of the points in time of a kind. -/
def TemporalKind.itemType : TemporalKind → ItemType
  | dateTime => .dateTime
  | date => .date
  | time => .time

section

variable {ts : List ItemType} {v d n : Atomic} {k : DurationKind} {t : TemporalKind}

/-- The values of the types of durations that operators take. -/
theorem Atomic.duration_cases (h : DurationKind.ofType? v.itemType = some k) :
    k = .yearMonth ∧ (∃ m, v = .yearMonthDuration m) ∨ k = .dayTime ∧ ∃ s, v = .dayTimeDuration s := by
  cases v with
  | yearMonthDuration m =>
    cases h
    exact .inl ⟨rfl, m, rfl⟩
  | dayTimeDuration s =>
    cases h
    exact .inr ⟨rfl, s, rfl⟩
  | text t => cases t <;> cases h
  | integer t => cases t <;> cases h
  | _ => cases h

/-- The values of the types of points in time that operators take. -/
theorem Atomic.temporal_cases (h : TemporalKind.ofType? v.itemType = some t) :
    t = .dateTime ∧ (∃ x z, v = .dateTime x z) ∨ t = .date ∧ (∃ x z, v = .date x z) ∨
      t = .time ∧ ∃ x z, v = .time x z := by
  cases v with
  | dateTime x z =>
    cases h
    exact .inl ⟨rfl, x, z, rfl⟩
  | date x z =>
    cases h
    exact .inr (.inl ⟨rfl, x, z, rfl⟩)
  | time x z =>
    cases h
    exact .inr (.inr ⟨rfl, x, z, rfl⟩)
  | text t => cases t <;> cases h
  | integer t => cases t <;> cases h
  | _ => cases h

private theorem itemType_of_durationKind (h : DurationKind.ofType? v.itemType = some k) :
    v.itemType = k.itemType := by
  obtain ⟨rfl, m, rfl⟩ | ⟨rfl, s, rfl⟩ := Atomic.duration_cases h
  · rfl
  · rfl

private theorem inCalendar_meets {α : Type} (x : Option α) :
    Meets (OperatorFailure ts) (fun _ => True) (Atomic.inCalendar x) := by
  cases x with
  | some => trivial
  | none => exact .of_kind rfl (by decide)

private theorem checkedMonths_meets (m : Int) :
    Meets (OperatorFailure ts) (fun _ => True) (Atomic.checkedMonths m) := by
  unfold Atomic.checkedMonths
  split
  · trivial
  · exact failure_durationOutOfRange

private theorem checkedSeconds_meets (s : Option Decimal) :
    Meets (OperatorFailure ts) (fun _ => True) (Atomic.checkedSeconds s) := by
  cases s with
  | some => trivial
  | none => exact failure_durationOutOfRange

/-- A point in time is taken to universal time, unless this leads out of the calendar. -/
private theorem universal_meets (h : TemporalKind.ofType? v.itemType = some t) :
    Meets (OperatorFailure ts) (fun _ => True) v.universal := by
  have hmeets : ∀ (x : Calendar.DateTime) (z : Option Calendar.Offset),
      Meets (OperatorFailure ts) (fun _ => True) (Atomic.dateTime x z).universal := by
    intro x z
    refine Meets.bind (Q := (· = (x, z))) rfl fun p _ => ?_
    dsimp only
    split
    · trivial
    · exact .of_kind rfl (by decide)
  -- a date stands for its midnight, and a time for the one on a fixed date
  obtain ⟨-, x, z, rfl⟩ | ⟨-, x, z, rfl⟩ | ⟨-, x, z, rfl⟩ := Atomic.temporal_cases h
  · exact hmeets _ _
  · exact hmeets _ _
  · exact hmeets _ _

/-- A shift by months keeps the type, and fails only for a result out of range. -/
private theorem shiftMonths_meets (hv : TemporalKind.ofType? v.itemType = some t)
    (h : ArithmeticRule.canShift t .yearMonth = true) (m : Int) :
    Meets (OperatorFailure ts) (·.itemType = v.itemType) (v.shiftMonths m) := by
  obtain ⟨rfl, x, z, rfl⟩ | ⟨rfl, x, z, rfl⟩ | ⟨rfl, x, z, rfl⟩ := Atomic.temporal_cases hv
  · exact (inCalendar_meets _).bind fun _ _ => rfl
  · exact (inCalendar_meets _).bind fun _ _ => rfl
  · cases h

/-- So does a shift by nanoseconds. -/
private theorem shiftNanos_meets (hv : TemporalKind.ofType? v.itemType = some t) (n : Int) :
    Meets (OperatorFailure ts) (·.itemType = v.itemType) (v.shiftNanos n) := by
  obtain ⟨rfl, x, z, rfl⟩ | ⟨rfl, x, z, rfl⟩ | ⟨rfl, x, z, rfl⟩ := Atomic.temporal_cases hv
  · exact (inCalendar_meets _).bind fun _ _ => rfl
  · exact (inCalendar_meets _).bind fun _ _ => rfl
  · rfl

/-- A shift keeps the type of the point in time. -/
theorem shift_meets (hv : TemporalKind.ofType? v.itemType = some t)
    (hd : DurationKind.ofType? d.itemType = some k) (h : ArithmeticRule.canShift t k = true) (backward : Bool) :
    Meets (OperatorFailure ts) (·.itemType = v.itemType) (v.shift d backward) := by
  obtain ⟨rfl, m, rfl⟩ | ⟨rfl, s, rfl⟩ := Atomic.duration_cases hd
  · unfold Atomic.shift
    dsimp only
    split
    · exact (checkedMonths_meets _).bind fun m _ => shiftMonths_meets hv h m
    · exact shiftMonths_meets hv h m
  · exact (inCalendar_meets _).bind fun n _ => shiftNanos_meets hv n

/-- A factor is a number, or an untyped operand, which may be no number. -/
private theorem factor_meets {kind : NumericKind} (hn : n.itemType ∈ ts)
    (hk : operandKind? n.itemType = some kind) :
    Meets (OperatorFailure ts) (fun _ => True) n.factor := by
  refine (typed_meets (fun h _ => failure_invalidLexical hn h) hk).bind fun x hx =>
    (promoteDouble_meets hx).bind fun y _ => ?_
  split
  · exact .of_kind rfl (by decide)
  · trivial

/-- A number of months is scaled with a double, which may be too large or not a number. -/
private theorem scaledMonths_meets (m : Int) (x : Float) (divide : Bool) :
    Meets (OperatorFailure ts) (fun _ => True) (Atomic.scaledMonths m x divide) := by
  unfold Atomic.scaledMonths
  dsimp only
  split
  · split
    · trivial
    · exact failure_durationOutOfRange
  · exact failure_durationOutOfRange

/-- So is a number of seconds. -/
private theorem scaledSeconds_meets (s : Decimal) (x : Float) (divide : Bool) :
    Meets (OperatorFailure ts) (fun _ => True) (Atomic.scaledSeconds s x divide) := by
  unfold Atomic.scaledSeconds
  split
  · split
    · trivial
    · exact failure_durationOutOfRange
  · exact (checkedSeconds_meets _).bind fun _ _ => checkedSeconds_meets _

/-- A multiple keeps the type of the duration. -/
theorem scale_meets {kind : NumericKind} (hd : DurationKind.ofType? d.itemType = some k) (hn : n.itemType ∈ ts)
    (hk : operandKind? n.itemType = some kind) (divide : Bool) :
    Meets (OperatorFailure ts) (·.itemType = k.itemType) (d.scale k n divide) := by
  refine (factor_meets hn hk).bind fun x _ => ?_
  dsimp only
  split
  · exact failure_durationOutOfRange
  · obtain ⟨rfl, m, rfl⟩ | ⟨rfl, s, rfl⟩ := Atomic.duration_cases hd
    · exact (scaledMonths_meets _ _ _).bind fun _ _ => rfl
    · exact (scaledSeconds_meets _ _ _).bind fun _ _ => rfl

/-- The difference of two points in time is a duration of days and time, if it is in range. -/
private theorem difference_meets {w : Atomic} {t' : TemporalKind} (hv : TemporalKind.ofType? v.itemType = some t)
    (hw : TemporalKind.ofType? w.itemType = some t') :
    Meets (OperatorFailure ts) (·.itemType = .dayTimeDuration) (v.difference w) :=
  (universal_meets hv).bind fun _ _ => (universal_meets hw).bind fun _ _ => rfl

/-- Sums and differences of durations of one kind are durations of this kind. -/
private theorem durationSum_meets {w : Atomic} (hv : DurationKind.ofType? v.itemType = some k)
    (hw : DurationKind.ofType? w.itemType = some k) (subtract : Bool) :
    Meets (OperatorFailure ts) (·.itemType = k.itemType) (ArithmeticRule.durationSum k subtract v w) := by
  obtain ⟨rfl, m, rfl⟩ | ⟨rfl, s, rfl⟩ := Atomic.duration_cases hv
  · obtain ⟨-, m', rfl⟩ | ⟨h, -⟩ := Atomic.duration_cases hw
    · exact (checkedMonths_meets _).bind fun _ _ => rfl
    · cases h
  · obtain ⟨h, -⟩ | ⟨-, s', rfl⟩ := Atomic.duration_cases hw
    · cases h
    · exact (checkedSeconds_meets _).bind fun _ _ => rfl

/-- The ratio of durations of one kind is a decimal. -/
private theorem durationRatio_meets {w : Atomic} (hv : DurationKind.ofType? v.itemType = some k)
    (hw : DurationKind.ofType? w.itemType = some k) :
    Meets (OperatorFailure ts) (·.itemType = .decimal) (ArithmeticRule.durationRatio k v w) := by
  obtain ⟨rfl, m, rfl⟩ | ⟨rfl, s, rfl⟩ := Atomic.duration_cases hv
  · obtain ⟨-, m', rfl⟩ | ⟨h, -⟩ := Atomic.duration_cases hw
    · refine Meets.bind (Q := (· = m')) rfl fun y _ => ?_
      dsimp only
      split
      · exact failure_divisionByZero
      · exact (orOverflow_meets _).bind fun _ _ => rfl
    · cases h
  · obtain ⟨h, -⟩ | ⟨-, s', rfl⟩ := Atomic.duration_cases hw
    · cases h
    · refine Meets.bind (Q := (· = s')) rfl fun y _ => ?_
      dsimp only
      split
      · exact failure_divisionByZero
      · exact (orOverflow_meets _).bind fun _ _ => rfl

end

/-! ### Resolutions of arithmetic -/

namespace ArithmeticRule

variable {op : ArithmeticOp} {l r : ItemType} {rule : ArithmeticRule}

/-- The ways in which an arithmetic operator is resolved. -/
inductive Resolution (op : ArithmeticOp) (l r : ItemType) : ArithmeticRule → Prop
  | numbers {lk rk : NumericKind} (hl : operandKind? l = some lk) (hr : operandKind? r = some rk) :
    Resolution op l r (ofKinds op lk rk)
  | durations {k : DurationKind} {rule : ArithmeticRule} (hl : DurationKind.ofType? l = some k)
    (hr : DurationKind.ofType? r = some k) (h : ofDurations? op k = some rule) : Resolution op l r rule
  | scaling {k : DurationKind} {rk : NumericKind} (divide : Bool) (hl : DurationKind.ofType? l = some k)
    (hr : operandKind? r = some rk) (hop : op = if divide then .div else .mul) :
    Resolution op l r (scale k divide)
  | multiplication {k : DurationKind} {lk : NumericKind} (hl : operandKind? l = some lk)
    (hr : DurationKind.ofType? r = some k) (hop : op = .mul) : Resolution op l r (multiple k)
  | distance {t : TemporalKind} (hl : TemporalKind.ofType? l = some t) (hr : TemporalKind.ofType? r = some t)
    (hop : op = .sub) : Resolution op l r difference
  | shifting {t : TemporalKind} {k : DurationKind} (backward : Bool) (hl : TemporalKind.ofType? l = some t)
    (hr : DurationKind.ofType? r = some k) (h : canShift t k = true)
    (hop : op = if backward then .sub else .add) : Resolution op l r (shift backward)
  | shiftingBy {t : TemporalKind} {k : DurationKind} (hl : DurationKind.ofType? l = some k)
    (hr : TemporalKind.ofType? r = some t) (h : canShift t k = true) (hop : op = .add) :
    Resolution op l r shiftBy

/-- Untyped operands count as doubles, which are no durations. -/
private theorem durationKind_operandType (t : ItemType) :
    DurationKind.ofType? (operandType t) = DurationKind.ofType? t := by
  unfold operandType
  split
  · subst_vars
    rfl
  · rfl

/-- Nor are they points in time. -/
private theorem temporalKind_operandType (t : ItemType) :
    TemporalKind.ofType? (operandType t) = TemporalKind.ofType? t := by
  unfold operandType
  split
  · subst_vars
    rfl
  · rfl

/-- A guard of the table of operators, read backwards. -/
private theorem of_isSome_and {α : Type} {x : Option α} {o : ArithmeticOp} (h : (x.isSome && op == o) = true) :
    (∃ a, x = some a) ∧ op = o := by
  obtain ⟨hx, ho⟩ := Bool.and_eq_true_iff.mp h
  exact ⟨Option.isSome_iff_exists.mp hx, eq_of_beq ho⟩

/-- Another one. -/
private theorem of_and_any {α : Type} {p : α → Bool} {x : Option α} {o : ArithmeticOp}
    (h : (op == o && x.any p) = true) : op = o ∧ ∃ a, x = some a ∧ p a = true := by
  obtain ⟨ho, hx⟩ := Bool.and_eq_true_iff.mp h
  cases x with
  | none => cases hx
  | some a => exact ⟨eq_of_beq ho, a, rfl, hx⟩

/-- Each entry of the table is one of the ways listed. -/
private theorem resolution_of_ofTypes? (h : ofTypes? op (operandType l) (operandType r) = some rule) :
    Resolution op l r rule := by
  unfold ofTypes? at h
  simp only [durationKind_operandType, temporalKind_operandType] at h
  split at h
  · rename_i k k' hl hr
    split at h
    · subst_vars
      exact .durations hl hr h
    · cases h
  · rename_i k hl hr
    split at h
    · rename_i hc
      obtain ⟨⟨rk, hrk⟩, hop⟩ := of_isSome_and hc
      cases h
      exact .scaling false hl hrk hop
    split at h
    · rename_i hc
      obtain ⟨⟨rk, hrk⟩, hop⟩ := of_isSome_and hc
      cases h
      exact .scaling true hl hrk hop
    split at h
    · rename_i hc
      obtain ⟨hop, t, ht, hshift⟩ := of_and_any hc
      cases h
      exact .shiftingBy hl ht hshift hop
    · cases h
  · rename_i k hl hr
    split at h
    · rename_i hc
      obtain ⟨⟨lk, hlk⟩, hop⟩ := of_isSome_and hc
      cases h
      exact .multiplication hlk hr hop
    split at h
    · rename_i hc
      obtain ⟨hop, t, ht, hshift⟩ := of_and_any hc
      cases h
      exact .shifting false ht hr hshift hop
    split at h
    · rename_i hc
      obtain ⟨hop, t, ht, hshift⟩ := of_and_any hc
      cases h
      exact .shifting true ht hr hshift hop
    · cases h
  · rename_i t t' _ _ hl hr
    split at h
    · rename_i hc
      obtain ⟨ht, hop⟩ := Bool.and_eq_true_iff.mp hc
      cases h
      exact .distance (t := t') (of_decide_eq_true ht ▸ hl) hr (eq_of_beq hop)
    · cases h
  · cases h

/-- An operator that is resolved is resolved in one of the ways listed. -/
theorem resolution_of_resolve (h : resolve op l r = .ok rule) : Resolution op l r rule := by
  unfold resolve at h
  dsimp only at h
  split at h
  · rename_i lk rk hl hr
    cases h
    exact .numbers hl hr
  · split at h
    · rename_i hrule
      cases h
      exact resolution_of_ofTypes? hrule
    · cases h

end ArithmeticRule

/-! ### Types of results -/

/-- The type that an operand counts as in arithmetic on numbers; an untyped one counts as a double. -/
def countsAs? (t : ItemType) : Option ItemType :=
  if t = .untypedAtomic then some .double
  else [ItemType.integer, .decimal, .float, .double].find? (t.isSubtypeOf ·)

/-- The widest of two types of numbers, where integers are the narrowest and doubles the widest ones. -/
def widest (s t : ItemType) : ItemType :=
  if s = .double ∨ t = .double then .double
  else if s = .float ∨ t = .float then .float
  else if s = .decimal ∨ t = .decimal then .decimal
  else .integer

/-- The types of ordered durations. -/
def isDuration (t : ItemType) : Bool := t = .yearMonthDuration || t = .dayTimeDuration

/-- The types of points in time. -/
def isPointInTime (t : ItemType) : Bool := t = .dateTime || t = .date || t = .time

/-- The type of what an arithmetic operator gives for operands of two types. -/
def resultType? (op : ArithmeticOp) (l r : ItemType) : Option ItemType :=
  match countsAs? l, countsAs? r with
  | some s, some t =>
    if op = .idiv then some .integer
    else if op = .div ∧ s = .integer ∧ t = .integer then some .decimal
    else some (widest s t)
  | none, some _ => if isDuration l ∧ (op = .mul ∨ op = .div) then some l else none
  | some _, none => if isDuration r ∧ op = .mul then some r else none
  | none, none =>
    if isDuration l ∧ l = r then
      if op = .add ∨ op = .sub then some l else if op = .div then some .decimal else none
    else if isPointInTime l ∧ l = r then if op = .sub then some .dayTimeDuration else none
    else if isPointInTime l ∧ isDuration r then if op = .add ∨ op = .sub then some l else none
    else if isDuration l ∧ isPointInTime r then if op = .add then some r else none
    else none

section

variable {op : ArithmeticOp} {l r : ItemType} {a b : Atomic} {rule : ArithmeticRule}

/-- What an operand counts as is the type of the kind that the operators work with. -/
private theorem countsAs?_eq (t : ItemType) : countsAs? t = (operandKind? t).map NumericKind.itemType := by
  cases t <;> rfl

/-- The widest of two types is that of the joined kinds. -/
private theorem widest_itemType (j k : NumericKind) : widest j.itemType k.itemType = (j.join k).itemType := by
  cases j <;> cases k <;> rfl

/-- A value that is a point in time of a kind has the type of this kind. -/
theorem itemType_of_temporalKind {v : Atomic} {t : TemporalKind}
    (h : TemporalKind.ofType? v.itemType = some t) : v.itemType = t.itemType := by
  obtain ⟨rfl, x, z, rfl⟩ | ⟨rfl, x, z, rfl⟩ | ⟨rfl, x, z, rfl⟩ := Atomic.temporal_cases h
  · rfl
  · rfl
  · rfl

/-- The kind of numbers that an operator is applied to. -/
def ArithmeticOp.workingKind (op : ArithmeticOp) (j k : NumericKind) : NumericKind :=
  if op = .div ∧ j.join k = .integer then .decimal else j.join k

/-- Both operands can be promoted to the kind that an operator works with. -/
private theorem rank_le_workingKind (op : ArithmeticOp) (j k : NumericKind) :
    j.rank ≤ (op.workingKind j k).rank ∧ k.rank ≤ (op.workingKind j k).rank := by
  cases op <;> cases j <;> cases k <;> decide

/-- The table of result types for numbers. -/
private theorem resultType?_numbers {lk rk : NumericKind} (hl : operandKind? l = some lk)
    (hr : operandKind? r = some rk) :
    resultType? op l r = some (op.numericResult (op.workingKind lk rk)) := by
  unfold resultType?
  rw [countsAs?_eq, countsAs?_eq, hl, hr]
  simp only [Option.map_some, widest_itemType]
  -- only `idiv` and `div` look at more than the join of the kinds
  cases lk <;> cases rk <;> cases op <;> rfl

/-- The table for durations that are multiplied or divided by a number. -/
private theorem resultType?_scaling {k : DurationKind} {rk : NumericKind} (divide : Bool)
    (hr : operandKind? r = some rk) :
    resultType? (if divide then .div else .mul) k.itemType r = some k.itemType := by
  unfold resultType?
  rw [countsAs?_eq r, hr]
  cases k <;> cases divide <;> rfl

/-- The table for numbers that durations are multiplied by. -/
private theorem resultType?_multiplication {k : DurationKind} {lk : NumericKind} (hl : operandKind? l = some lk) :
    resultType? .mul l k.itemType = some k.itemType := by
  unfold resultType?
  rw [countsAs?_eq l, hl]
  cases k <;> rfl

/-- The table for the difference of points in time. -/
private theorem resultType?_distance (t : TemporalKind) :
    resultType? .sub t.itemType t.itemType = some .dayTimeDuration := by
  cases t <;> rfl

/-- The table for points in time that are shifted by durations. -/
private theorem resultType?_shifting (t : TemporalKind) (k : DurationKind) (backward : Bool) :
    resultType? (if backward then .sub else .add) t.itemType k.itemType = some t.itemType := by
  cases t <;> cases k <;> cases backward <;> rfl

/-- The table for durations that points in time are shifted by. -/
private theorem resultType?_shiftingBy (t : TemporalKind) (k : DurationKind) :
    resultType? .add k.itemType t.itemType = some t.itemType := by
  cases t <;> cases k <;> rfl

/-- The rules for two durations of one kind meet the table. -/
private theorem applyDurations_meets {ts : List ItemType} {k : DurationKind}
    (ha : DurationKind.ofType? a.itemType = some k) (hb : DurationKind.ofType? b.itemType = some k)
    (h : ArithmeticRule.ofDurations? op k = some rule) :
    Meets (OperatorFailure ts) (fun v => resultType? op k.itemType k.itemType = some v.itemType)
      (rule.apply a b) := by
  have hsum : ∀ subtract : Bool, resultType? (if subtract then .sub else .add) k.itemType k.itemType =
      some k.itemType := by
    cases k <;> decide
  have hratio : resultType? .div k.itemType k.itemType = some .decimal := by
    cases k <;> rfl
  cases op with
  | add =>
    cases h
    exact (durationSum_meets ha hb false).mono fun v hv => hv ▸ hsum false
  | sub =>
    cases h
    exact (durationSum_meets ha hb true).mono fun v hv => hv ▸ hsum true
  | div =>
    cases h
    exact (durationRatio_meets ha hb).mono fun v hv => hv ▸ hratio
  | mul | idiv | mod => cases h

/-- **What a rule does.** On values of the types that it was resolved for, the result is of the expected
type, and a failure is one of a few. -/
theorem ArithmeticRule.apply_meets (h : Resolution op a.itemType b.itemType rule) :
    Meets (OperatorFailure [a.itemType, b.itemType])
      (fun v => resultType? op a.itemType b.itemType = some v.itemType) (rule.apply a b) := by
  have ha : a.itemType ∈ [a.itemType, b.itemType] := .head _
  have hb : b.itemType ∈ [a.itemType, b.itemType] := .tail _ (.head _)
  cases h with
  | @numbers lk rk hl hr =>
    obtain ⟨hlk, hrk⟩ := rank_le_workingKind op lk rk
    refine (typed_meets (fun h _ => failure_invalidLexical ha h) hl).bind fun x hx =>
      (typed_meets (fun h _ => failure_invalidLexical hb h) hr).bind fun y hy => ?_
    refine (Operands.promote_meets hx hy hlk hrk).bind fun z hz => ?_
    refine (op.onOperands_meets z).mono fun v hv => ?_
    rw [resultType?_numbers hl hr, hv, hz]
  | durations hl hr h =>
    rw [itemType_of_durationKind hl, itemType_of_durationKind hr]
    exact applyDurations_meets hl hr h
  | scaling divide hl hr hop =>
    refine (scale_meets hl hb hr divide).mono fun v hv => ?_
    rw [hop, itemType_of_durationKind hl, hv, resultType?_scaling divide hr]
  | multiplication hl hr hop =>
    refine (scale_meets hr ha hl false).mono fun v hv => ?_
    rw [hop, itemType_of_durationKind hr, hv, resultType?_multiplication hl]
  | distance hl hr hop =>
    refine (difference_meets hl hr).mono fun v hv => ?_
    rw [hop, itemType_of_temporalKind hl, itemType_of_temporalKind hr, hv, resultType?_distance]
  | shifting backward hl hr h hop =>
    refine (shift_meets hl hr h backward).mono fun v hv => ?_
    rw [hop, hv, itemType_of_temporalKind hl, itemType_of_durationKind hr, resultType?_shifting]
  | shiftingBy hl hr h hop =>
    refine (shift_meets hr hl h false).mono fun v hv => ?_
    rw [hop, hv, itemType_of_temporalKind hr, itemType_of_durationKind hl, resultType?_shiftingBy]

end

/-! ### Signs and comparisons -/

section

variable {a b : Atomic}

/-- A number is negated in its own kind, unless it is the least integer. -/
private theorem negated_meets {ts : List ItemType} {k : NumericKind} (h : a.numericKind? = some k) :
    Meets (OperatorFailure ts) (fun _ => True) (a.negated k) := by
  cases k with
  | integer =>
    exact (promoteInteger_meets failure_numericOverflow h (Nat.le_refl _)).bind fun _ _ =>
      (checkedLong_meets _).bind fun _ _ => trivial
  | decimal => exact (promoteDecimal_meets failure_numericOverflow h (Nat.le_refl _)).bind fun _ _ => trivial
  | float => exact (promoteFloat_meets h (Nat.le_refl _)).bind fun _ _ => trivial
  | double => exact (promoteDouble_meets h).bind fun _ _ => trivial

theorem UnaryRule.apply_meets (op : UnaryOp) (a : Atomic) :
    Meets (OperatorFailure [a.itemType]) (fun _ => True) ((resolve op a.itemType).apply a) := by
  have ha : a.itemType ∈ [a.itemType] := .head _
  unfold resolve
  split
  · trivial
  · rename_i k hk
    exact (typed_meets (fun h _ => failure_invalidLexical ha h) hk).mono fun _ _ => trivial
  · rename_i k hk
    exact (typed_meets (fun h _ => failure_invalidLexical ha h) hk).bind fun x hx => negated_meets hx

private theorem Atomic.eq_boolean_of_itemType (h : a.itemType = .boolean) : ∃ x, a = .boolean x := by
  cases a with
  | boolean x => exact ⟨x, rfl⟩
  | text t => cases t <;> cases h
  | integer t => cases t <;> cases h
  | _ => cases h

private theorem Atomic.eq_qname_of_itemType (h : a.itemType = .qname) : ∃ s p l, a = .qname s p l := by
  cases a with
  | qname s p l => exact ⟨s, p, l, rfl⟩
  | text t => cases t <;> cases h
  | integer t => cases t <;> cases h
  | _ => cases h

/-- What two values have to be in order to be compared by something. -/
inductive ComparisonBasis.Suits : ComparisonBasis → Atomic → Atomic → Prop where
  | numbers {v w k l} : v.numericKind? = some k → w.numericKind? = some l → Suits (.numbers (k.join l)) v w
  | texts {v w s t} : v.text? = some s → w.text? = some t → Suits .texts v w
  | booleans (x y) : Suits .booleans (.boolean x) (.boolean y)
  | instants {v w t} : TemporalKind.ofType? v.itemType = some t → TemporalKind.ofType? w.itemType = some t →
      Suits .instants v w
  | durations {v w k} : DurationKind.ofType? v.itemType = some k → DurationKind.ofType? w.itemType = some k →
      Suits (.durations k) v w
  | zeroDurations {v w k l} : k ≠ l → DurationKind.ofType? v.itemType = some k →
      DurationKind.ofType? w.itemType = some l → Suits .zeroDurations v w
  | qnames (s p n s' p' n') : Suits .qnames (.qname s p n) (.qname s' p' n')
  | identity {v w} : ComparisonRule.isIdentityType v.itemType = true → Suits .identity v w

namespace ComparisonRule

/-- Only strings come from other types. -/
theorem operandType_eq {t : ItemType} (h : operandType t ≠ .string) : operandType t = t := by
  unfold operandType at h ⊢
  split at h
  · exact absurd rfl h
  · exact absurd rfl h
  · rfl

private theorem numericKind_of_operandType {k : NumericKind}
    (h : NumericKind.ofType? (operandType a.itemType) = some k) : a.numericKind? = some k := by
  have hne : operandType a.itemType ≠ .string := fun hs => by rw [hs] at h; cases h
  rwa [operandType_eq hne, Atomic.ofType?_itemType] at h

private theorem temporalKind_of_operandType {t : TemporalKind}
    (h : TemporalKind.ofType? (operandType a.itemType) = some t) : TemporalKind.ofType? a.itemType = some t := by
  have hne : operandType a.itemType ≠ .string := fun hs => by rw [hs] at h; cases h
  rwa [operandType_eq hne] at h

private theorem durationKind_of_operandType {k : DurationKind}
    (h : DurationKind.ofType? (operandType a.itemType) = some k) : DurationKind.ofType? a.itemType = some k := by
  have hne : operandType a.itemType ≠ .string := fun hs => by rw [hs] at h; cases h
  rwa [operandType_eq hne] at h

/-- Only untyped operands count as something else than what they are, namely as strings. -/
private theorem itemType_of_operandType {t : ItemType} (ht : t ≠ .string) (h : operandType a.itemType = t) :
    a.itemType = t := by
  have hne : operandType a.itemType ≠ .string := fun hs => ht (h.symm.trans hs)
  exact (operandType_eq hne).symm.trans h

/-- A text is what counts as a string. -/
theorem text?_of_isStringLike (h : (operandType a.itemType).isStringLike = true) : ∃ s, a.text? = some s := by
  cases a with
  | text t s => exact ⟨s, rfl⟩
  | integer t => cases t <;> cases h
  | _ => cases h

/-- Values are compared by something that suits them. -/
theorem suits_of_basis? {op : ComparisonOp} {basis : ComparisonBasis}
    (h : basis? op (operandType a.itemType) (operandType b.itemType) = some basis) : basis.Suits a b := by
  -- numbers, strings, booleans, points in time, durations, and what can only be tested for equality
  unfold basis? at h
  split at h
  · rename_i hl hr
    cases h
    exact .numbers (numericKind_of_operandType hl) (numericKind_of_operandType hr)
  split at h
  · rename_i hc
    cases h
    obtain ⟨hl, hr⟩ := Bool.and_eq_true_iff.mp hc
    obtain ⟨s, hs⟩ := text?_of_isStringLike hl
    obtain ⟨t, ht⟩ := text?_of_isStringLike hr
    exact .texts hs ht
  split at h
  · rename_i hc
    cases h
    obtain ⟨hl, hr⟩ := Bool.and_eq_true_iff.mp hc
    obtain ⟨x, rfl⟩ := Atomic.eq_boolean_of_itemType (itemType_of_operandType (by decide) (of_decide_eq_true hl))
    obtain ⟨y, rfl⟩ := Atomic.eq_boolean_of_itemType (itemType_of_operandType (by decide) (of_decide_eq_true hr))
    exact .booleans x y
  split at h
  · rename_i hc
    cases h
    obtain ⟨hl, hlr⟩ := Bool.and_eq_true_iff.mp hc
    obtain ⟨t, ht⟩ := Option.isSome_iff_exists.mp hl
    have hr : TemporalKind.ofType? (operandType b.itemType) = some t := (eq_of_beq hlr).symm.trans ht
    exact .instants (temporalKind_of_operandType ht) (temporalKind_of_operandType hr)
  split at h
  · rename_i k k' hl hr
    split at h
    · rename_i hk
      subst hk
      cases h
      exact .durations (durationKind_of_operandType hl) (durationKind_of_operandType hr)
    split at h
    · rename_i hk _
      cases h
      exact .zeroDurations hk (durationKind_of_operandType hl) (durationKind_of_operandType hr)
    · cases h
  split at h
  · rename_i hc
    have hr := of_decide_eq_true (Bool.and_eq_true_iff.mp hc).1
    split at h
    · rename_i hl
      cases h
      obtain ⟨s, p, n, rfl⟩ := Atomic.eq_qname_of_itemType (itemType_of_operandType (by decide) hl)
      obtain ⟨s', p', n', rfl⟩ :=
        Atomic.eq_qname_of_itemType (itemType_of_operandType (by decide) (hr.symm.trans hl))
      exact .qnames ..
    split at h
    · rename_i hidentity
      cases h
      have hne : operandType a.itemType ≠ .string := fun hs => by rw [hs] at hidentity; cases hidentity
      rw [operandType_eq hne] at hidentity
      exact .identity hidentity
    · cases h
  · cases h

section

variable {ts : List ItemType}

/-- Numbers are compared in the kind they are joined to, which may be too small for an integer. -/
private theorem order_numbers_meets {lk rk : NumericKind} (ha : a.numericKind? = some lk)
    (hb : b.numericKind? = some rk) :
    Meets (OperatorFailure ts) (fun _ => True) ((ComparisonBasis.numbers (lk.join rk)).order a b) := by
  -- a comparison works on the kind that an addition works on
  obtain ⟨hl, hr⟩ := rank_le_workingKind .add lk rk
  exact (Operands.promote_meets ha hb hl hr).bind fun _ _ => trivial

/-- Durations of one kind can always be compared. -/
private theorem order_durations_meets {k : DurationKind} (ha : DurationKind.ofType? a.itemType = some k)
    (hb : DurationKind.ofType? b.itemType = some k) :
    Meets (OperatorFailure ts) (fun _ => True) ((ComparisonBasis.durations k).order a b) := by
  obtain ⟨rfl, m, rfl⟩ | ⟨rfl, s, rfl⟩ := Atomic.duration_cases ha
  · obtain ⟨-, m', rfl⟩ | ⟨h, -⟩ := Atomic.duration_cases hb
    · trivial
    · cases h
  · obtain ⟨h, -⟩ | ⟨-, s', rfl⟩ := Atomic.duration_cases hb
    · cases h
    · trivial

end

/-- What values are compared by can be told of them. -/
theorem order_meets {op : ComparisonOp} {basis : ComparisonBasis}
    (h : basis? op (operandType a.itemType) (operandType b.itemType) = some basis) :
    Meets (OperatorFailure [a.itemType, b.itemType]) (fun _ => True) (basis.order a b) := by
  cases suits_of_basis? h with
  | numbers ha hb => exact order_numbers_meets ha hb
  | texts | booleans | zeroDurations | qnames | identity => trivial
  | instants ha hb => exact (universal_meets ha).bind fun _ _ => (universal_meets hb).bind fun _ _ => trivial
  | durations ha hb => exact order_durations_meets ha hb

/-- A comparison applied to values of the types it was resolved for. -/
theorem apply_meets {op : ComparisonOp} {rule : ComparisonRule}
    (h : resolve op a.itemType b.itemType = .ok rule) :
    Meets (OperatorFailure [a.itemType, b.itemType]) (fun _ => True) (rule.apply a b) := by
  unfold resolve at h
  split at h
  · rename_i basis hb
    cases h
    exact (order_meets hb).bind fun _ _ => trivial
  · cases h

end ComparisonRule

end

/-! ### Soundness -/

/-- **Operators are sound for the types that they are resolved for.** A resolved operator does not refuse
values of its types: it fails only with the codes of `OperatorFailure`, of which none is the one of a type
error. The type of what arithmetic gives is determined by the operator and the types. -/
theorem operators_sound (l r : ItemType) (a b : Atomic) (ha : a.itemType = l) (hb : b.itemType = r) :
    (∀ (op : ArithmeticOp) (rule : ArithmeticRule), ArithmeticRule.resolve op l r = .ok rule →
      (∀ e, rule.apply a b = .error e →
        OperatorFailure [l, r] e ∧ e.code ≠ ErrorCode.XPTY0004.name) ∧
      ∀ v, rule.apply a b = .ok v → resultType? op l r = some v.itemType) ∧
    (∀ (op : UnaryOp) e, (UnaryRule.resolve op l).apply a = .error e →
      OperatorFailure [l] e ∧ e.code ≠ ErrorCode.XPTY0004.name) ∧
    ∀ (op : ComparisonOp) (rule : ComparisonRule), ComparisonRule.resolve op l r = .ok rule →
      ∀ e, rule.apply a b = .error e → OperatorFailure [l, r] e ∧ e.code ≠ ErrorCode.XPTY0004.name := by
  subst ha hb
  have hcode : ∀ {ts : List ItemType} {e : Error}, OperatorFailure ts e →
      OperatorFailure ts e ∧ e.code ≠ ErrorCode.XPTY0004.name :=
    fun h => ⟨h, h.code_ne (by decide) (by decide)⟩
  refine ⟨fun op rule h => ?_, fun op e he => ?_, fun op rule h e he => ?_⟩
  · have hmeets := ArithmeticRule.apply_meets (ArithmeticRule.resolution_of_resolve h)
    exact ⟨fun e he => hcode (hmeets.of_error he), fun v hv => hmeets.of_ok hv⟩
  · exact hcode ((UnaryRule.apply_meets op a).of_error he)
  · exact hcode ((ComparisonRule.apply_meets h).of_error he)

/-- A month after the last of January is the last of February, which is a date again; and the quotient of
bytes by zero is a division by zero. -/
theorem operators_sound_calendar :
    let january : Atomic := .date ⟨2024, 1, 31, by decide, by decide, by decide⟩ none
    let february : Atomic := .date ⟨2024, 2, 29, by decide, by decide, by decide⟩ none
    (ArithmeticRule.resolve .add .date .yearMonthDuration = .ok (.shift false) ∧
      (ArithmeticRule.shift false).apply january (.yearMonthDuration 1) = .ok february ∧
      resultType? .add .date .yearMonthDuration = some february.itemType) ∧
    ArithmeticRule.resolve .idiv .byte .integer = .ok (.numeric .idiv .integer) ∧
      (ArithmeticRule.numeric .idiv .integer).apply (.integer .byte 7) (.ofInt 0) = .error .divisionByZero ∧
      OperatorFailure [.byte, .integer] .divisionByZero := by
  intro january february
  have hshift : (ArithmeticRule.shift false).apply january (.yearMonthDuration 1) = .ok february := rfl
  have hzero : (ArithmeticRule.numeric .idiv .integer).apply (.integer .byte 7) (.ofInt 0) =
      .error .divisionByZero := rfl
  refine ⟨⟨rfl, hshift, ?_⟩, rfl, hzero, ?_⟩
  · exact ((operators_sound .date .yearMonthDuration january (.yearMonthDuration 1) rfl rfl).1 .add
      (.shift false) rfl).2 february hshift
  · exact (((operators_sound .byte .integer (.integer .byte 7) (.ofInt 0) rfl rfl).1 .idiv
      (.numeric .idiv .integer) rfl).1 .divisionByZero hzero).1

end LazyXPath
