import LazyXPath.ItemType

/-!
# Errors

An evaluation fails for a **cause**, a constructor of `Error`. The cause determines the error code,
a name that programs can test for, and the message, a text for readers. Most codes belong to the
closed list `ErrorCode` in the error namespace; an error raised by a host has any code and message.
-/

namespace LazyXPath

/-- The error codes of the evaluator itself. -/
inductive ErrorCode where
  | FOAR0001
  | FOAR0002
  | FOAY0001
  | FOCA0002
  | FOCA0003
  | FOCA0005
  | FODT0001
  | FODT0002
  | FOER0000
  | FORG0001
  | FORG0006
  | FOTY0013
  | FOTY0014
  | XPDY0002
  | XPST0008
  | XPST0017
  | XPST0080
  | XPST0081
  | XPTY0004
  | XPTY0018
  | XPTY0019
  | XPTY0020
  /-- Stands for every other code. -/
  | unknown
deriving DecidableEq, Inhabited

namespace ErrorCode

/-- The codes that have a name of their own. -/
def all : List ErrorCode :=
  [FOAR0001, FOAR0002, FOAY0001, FOCA0002, FOCA0003, FOCA0005, FODT0001, FODT0002, FOER0000,
    FORG0001, FORG0006, FOTY0013, FOTY0014, XPDY0002, XPST0008, XPST0017, XPST0080, XPST0081,
    XPTY0004, XPTY0018, XPTY0019, XPTY0020]

/-- The local part of a code. -/
def text : ErrorCode → String
  | FOAR0001 => "FOAR0001"
  | FOAR0002 => "FOAR0002"
  | FOAY0001 => "FOAY0001"
  | FOCA0002 => "FOCA0002"
  | FOCA0003 => "FOCA0003"
  | FOCA0005 => "FOCA0005"
  | FODT0001 => "FODT0001"
  | FODT0002 => "FODT0002"
  | FOER0000 => "FOER0000"
  | FORG0001 => "FORG0001"
  | FORG0006 => "FORG0006"
  | FOTY0013 => "FOTY0013"
  | FOTY0014 => "FOTY0014"
  | XPDY0002 => "XPDY0002"
  | XPST0008 => "XPST0008"
  | XPST0017 => "XPST0017"
  | XPST0080 => "XPST0080"
  | XPST0081 => "XPST0081"
  | XPTY0004 => "XPTY0004"
  | XPTY0018 => "XPTY0018"
  | XPTY0019 => "XPTY0019"
  | XPTY0020 => "XPTY0020"
  | unknown => "UNKNOWN"

/-- The code as a name of the error namespace. -/
def name (c : ErrorCode) : Name := .inSpace .errors c.text

/-- The code with the given local part. -/
def ofText (s : String) : ErrorCode := (all.find? (·.text = s)).getD unknown

/-- The code with the given local part, in front of which `err:` may stand. -/
def ofCode (s : String) : ErrorCode :=
  ofText (if s.startsWith "err:" then (s.drop 4).copy else s)

/-- The code that a name stands for. -/
def ofName (n : Name) : ErrorCode :=
  if n.space = some Reserved.errors.uri then ofCode n.localPart else unknown

end ErrorCode

/-! ### What errors speak of -/

/-- A function as it is mentioned in texts: its name, if it has one, and its arity. -/
structure FunctionLabel where
  name : Option Name
  arity : Nat
deriving DecidableEq, Inhabited

/-- The spelling `name#arity`. -/
def FunctionLabel.display (f : FunctionLabel) : String :=
  (f.name.map Name.display).getD "(anonymous)" ++ "#" ++ toString f.arity

/-- What kind of item something is. -/
inductive ItemKind where
  | ofType (t : ItemType)
  | function (f : FunctionLabel)
deriving DecidableEq, Inhabited

/-- The spelling of the kind of an item. -/
def ItemKind.display : ItemKind → String
  | ofType t => t.display
  | function f => "function " ++ f.display

/-- Why a sequence does not have a sequence type. -/
inductive Mismatch where
  | emptySequence
  | moreThanOne
  | count (n : Nat)
  | kind (k : ItemKind)
deriving DecidableEq

/-- The spelling of a mismatch. -/
def Mismatch.display : Mismatch → String
  | emptySequence => "empty sequence"
  | moreThanOne => "more than one item"
  | count n => toString n ++ " items"
  | kind k => k.display

/-- A number that is not finite. -/
inductive NonFinite where
  | nan
  | infinity (negative : Bool)
deriving DecidableEq

/-- The spelling of a number that is not finite. -/
def NonFinite.display : NonFinite → String
  | nan => "NaN"
  | infinity false => "inf"
  | infinity true => "-inf"

/-- The part of the focus that is missing. -/
inductive FocusPart where
  | item
  | position
  | size
deriving DecidableEq

/-- The spelling of a part of the focus. -/
def FocusPart.display : FocusPart → String
  | item => "item"
  | position => "position"
  | size => "size"

/-- What has grown beyond a 64-bit integer. -/
inductive Measure where
  | count
  | contextSize
  | contextPosition
  | stringLength
deriving DecidableEq

/-- The spelling of a measure. -/
def Measure.display : Measure → String
  | count => "count"
  | contextSize => "context size"
  | contextPosition => "context position"
  | stringLength => "string length"

/-! ### Causes -/

/-- The causes for which an evaluation fails. -/
inductive Error where
  -- casting
  | invalidLexical (target : ItemType) (text : String)
  | cannotCast (source target : ItemType)
  | notACastTarget (target : ItemType)
  | castOfNonFinite (value : NonFinite) (target : ItemType)
  | tooLargeFor (target : ItemType)
  | outOfRange (value : Int) (target : ItemType)
  | unresolvedPrefix (name : String)
  -- operators
  | numericOverflow
  | decimalOverflow
  | divisionByZero
  | notNumeric (t : ItemType)
  | integerQuotientUndefined
  | dateTimeOutOfRange
  | durationOutOfRange
  | factorNotANumber
  | unexpectedOperand (t : ItemType)
  | noOperator (symbol : String) (left right : ItemType)
  | notComparable (symbol : String) (left right : ItemType)
  | operandsNotAtomic
  | operandNotAtomic
  | operatorEntryMismatch
  -- sequences
  | mapAtomized
  | functionAtomized (f : FunctionLabel)
  | notSingle (operand : Nat)
  | noBooleanValue (k : ItemKind)
  | booleanValueOfMany
  | hostValueDropped
  | tooDeep
  -- calls
  | arityRefused (f : FunctionLabel) (arity : Nat)
  | wrongArgumentCount (f : FunctionLabel) (count : Nat)
  | typeMismatch (expected : SequenceType) (found : Mismatch)
  | cannotConvert (source : ItemType) (text : String) (target : ItemType)
  | noOverloadOfArity (name : Name) (arity : Nat)
  | noOverloadAccepts (name : Name)
  | overloadsAmbiguous (name : Name)
  | unknownFunction (name : Name) (suggestions : List Name)
  | noSuchArity (name : Name) (available : List Nat) (variadicFrom : Option Nat)
  | indexOutOfBounds (index : Int) (size : Nat)
  | lookupArgumentCount (k : ItemKind) (count : Nat)
  | notCallable (k : ItemKind)
  | notPartiallyApplicable (k : ItemKind)
  | emptyCallTarget
  | argumentCount (expected found : Nat)
  -- expressions
  | unboundVariable (name : Name)
  | absentFocus (part : FocusPart)
  | unknownSize
  | measureOverflow (m : Measure)
  | rangeBoundOutOfRange
  | stepFromNonNode (k : ItemKind)
  | axisFromNonNode (k : ItemKind)
  | mixedPath
  | unrelatedNodes
  -- breakdowns: a panic, with which the whole process ends
  | noTotalOrder
  | sumOverflow
  -- functions of the catalog
  | stringOfNonString
  | constructorOfNonAtomic (target : ItemType) (k : ItemKind)
  | absoluteOfNonAtomic
  | absoluteOfNonNumeric (t : ItemType)
  | absoluteOverflow
  | negationOfNonBoolean
  -- hosts
  | raised (code : Name) (message : String)
deriving DecidableEq

namespace Error

instance : Inhabited Error := ⟨tooDeep⟩

/-- The code of an error of the evaluator itself. -/
def kind : Error → ErrorCode
  | invalidLexical .. | outOfRange .. => .FORG0001
  | notACastTarget _ => .XPST0080
  | castOfNonFinite .. => .FOCA0002
  | tooLargeFor _ => .FOCA0003
  | unresolvedPrefix _ => .XPST0081
  | numericOverflow | decimalOverflow | integerQuotientUndefined | measureOverflow _
  | rangeBoundOutOfRange | absoluteOverflow => .FOAR0002
  | divisionByZero => .FOAR0001
  | dateTimeOutOfRange => .FODT0001
  | durationOutOfRange => .FODT0002
  | factorNotANumber => .FOCA0005
  | mapAtomized | functionAtomized _ => .FOTY0013
  | noBooleanValue _ | booleanValueOfMany => .FORG0006
  | hostValueDropped | unrelatedNodes | tooDeep => .FOER0000
  | arityRefused .. | noOverloadOfArity .. | unknownFunction .. | noSuchArity .. => .XPST0017
  | indexOutOfBounds .. => .FOAY0001
  | unboundVariable _ => .XPST0008
  | absentFocus _ | unknownSize => .XPDY0002
  | stepFromNonNode _ => .XPTY0019
  | axisFromNonNode _ => .XPTY0020
  | mixedPath => .XPTY0018
  | stringOfNonString => .FOTY0014
  | operatorEntryMismatch | noTotalOrder | sumOverflow => .unknown
  | raised code _ => .ofName code
  | _ => .XPTY0004

/-- The code of an error. -/
def code : Error → Name
  | raised code _ => code
  | e => e.kind.name

/-- The message of an error. -/
def message : Error → String
  | invalidLexical t s => "invalid lexical form for " ++ t.display ++ ": '" ++ s ++ "'"
  | cannotCast s t => "cannot cast " ++ s.display ++ " to " ++ t.display
  | notACastTarget t => t.display ++ " cannot be the target of a cast"
  | castOfNonFinite v t => v.display ++ " cannot be cast to " ++ t.display
  | tooLargeFor t => "value too large for " ++ t.display
  | outOfRange i t => toString i ++ " is out of range for " ++ t.display
  | unresolvedPrefix p => "prefix '" ++ p ++ "' cannot be resolved without namespace bindings"
  | numericOverflow => "numeric overflow"
  | decimalOverflow => "decimal overflow"
  | divisionByZero => "division by zero"
  | notNumeric t => t.display ++ " is not numeric"
  | integerQuotientUndefined => "idiv operand is NaN or infinite"
  | dateTimeOutOfRange => "date/time arithmetic out of range"
  | durationOutOfRange => "duration out of range"
  | factorNotANumber => "NaN supplied as a duration factor"
  | unexpectedOperand t => "unexpected operand of type " ++ t.display
  | noOperator op l r =>
    "operator '" ++ op ++ "' is not defined for " ++ l.display ++ " and " ++ r.display
  | notComparable op l r =>
    "values of type " ++ l.display ++ " and " ++ r.display ++ " cannot be compared with '" ++ op ++
      "'"
  | operandsNotAtomic => "operands must be atomic"
  | operandNotAtomic => "unary operand is not atomic"
  | operatorEntryMismatch => "operator cache entry mismatch"
  | mapAtomized => "a map cannot be atomized"
  | functionAtomized f => "function " ++ f.display ++ " cannot be atomized"
  | notSingle i =>
    "operand " ++ toString i ++ " must be a single item, found a sequence of more than one"
  | noBooleanValue k => "effective boolean value is not defined for " ++ k.display
  | booleanValueOfMany =>
    "effective boolean value is not defined for a sequence of two or more items " ++
      "starting with an atomic value"
  | hostValueDropped => "host value was dropped before it was resolved"
  | tooDeep => "evaluation is nested too deeply"
  | arityRefused f n => f.display ++ " cannot be called with " ++ toString n ++ " arguments"
  | wrongArgumentCount f n => f.display ++ " called with " ++ toString n ++ " arguments"
  | typeMismatch s m => "expected " ++ s.display ++ ", got " ++ m.display
  | cannotConvert s v t =>
    "cannot convert " ++ s.display ++ " value '" ++ v ++ "' to " ++ t.display
  | noOverloadOfArity f n =>
    "no overload of " ++ f.display ++ " accepts " ++ toString n ++ " arguments"
  | noOverloadAccepts f => "no overload of " ++ f.display ++ " accepts the supplied arguments"
  | overloadsAmbiguous f =>
    "more than one overload of " ++ f.display ++ " accepts the supplied arguments"
  | unknownFunction f [] => "unknown function " ++ f.display
  | unknownFunction f names =>
    "unknown function " ++ f.display ++ "; did you mean " ++
      ", ".intercalate (names.map Name.display) ++ "?"
  | noSuchArity f available variadicFrom =>
    "function " ++ f.display ++ " has no overload with this arity; available: " ++
      ", ".intercalate
        (available.map toString ++ (variadicFrom.map (toString · ++ " or more")).toList)
  | indexOutOfBounds i n =>
    "array index " ++ toString i ++ " out of bounds (size " ++ toString n ++ ")"
  | lookupArgumentCount k n => k.display ++ " expects one argument, got " ++ toString n
  | notCallable k => k.display ++ " is not a function"
  | notPartiallyApplicable k => "cannot partially apply " ++ k.display
  | emptyCallTarget => "dynamic call target is empty"
  | argumentCount expected found =>
    "expected " ++ toString expected ++ " arguments, got " ++ toString found
  | unboundVariable x => "variable $" ++ x.display ++ " is not bound"
  | absentFocus part => "context " ++ part.display ++ " is absent"
  | unknownSize => "context size is unknown"
  | measureOverflow m => m.display ++ " overflow"
  | rangeBoundOutOfRange => "range bound outside the supported integer range"
  | stepFromNonNode k => "path step applied to " ++ k.display
  | axisFromNonNode k => "axis step on " ++ k.display
  | mixedPath => "path result mixes nodes and non-node items"
  | unrelatedNodes => "document order is undefined for nodes from different trees"
  | noTotalOrder => "user-provided comparison function does not correctly implement a total order"
  | sumOverflow => "attempt to add with overflow"
  | stringOfNonString => "fn:string is not defined for maps, arrays or functions"
  | constructorOfNonAtomic t k =>
    "constructor " ++ t.display ++ " expects an atomic value, got " ++ k.display
  | absoluteOfNonAtomic => "fn:abs expects a numeric value"
  | absoluteOfNonNumeric t => "fn:abs expects a numeric value, got " ++ t.display
  | absoluteOverflow => "integer overflow"
  | negationOfNonBoolean => "effective boolean value is not a boolean"
  | raised _ m => m

/-- Whether nothing goes on after an error: it is no failure of an evaluation but a panic, and the
message is all that is left of the run. -/
def isBreakdown : Error → Bool
  | noTotalOrder | sumOverflow => true
  | _ => false

/-- The message together with the code. -/
def display (e : Error) : String := "error: " ++ e.message ++ " (" ++ e.code.code ++ ")"

end Error

end LazyXPath
