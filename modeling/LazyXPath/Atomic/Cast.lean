import LazyXPath.Atomic.Basic
import LazyXPath.Decimal.Binary
import LazyXPath.Text.NameForm
import LazyXPath.Text.Bytes

/-!
# Casting

`Atomic.ofLexical` reads a text as a value of a type, after the white space normalization of that
type. `Atomic.cast` turns a value into one of another type: strings and untyped values through the
lexical form of the target, every other value by its meaning.
-/

namespace LazyXPath

open Calendar

namespace Atomic

/-- The value of an integer type, if the integer is in its range. -/
def ofInteger (i : Int) (t : IntegerType) : Except Error Atomic :=
  if t.holds i then .ok (.integer t i)
  else if t = .integer then .error (.tooLargeFor .integer)
  else .error (.outOfRange i t.itemType)

/-! ### Lexical forms -/

/-- Whether a text with normalized white space is a value of a text type. -/
def isFormOf (cs : List Char) : TextType → Bool
  | .string | .untypedAtomic | .anyUri | .normalizedString | .token => true
  | .language => Text.isLanguage cs
  | .name => Text.isName cs
  | .nmtoken => Text.isNmtoken cs
  | .ncname | .id | .idref | .entity => Text.isNcname cs

/-- White space as a text type treats it. -/
def normalizeBlanks (cs : List Char) : TextType → List Char
  | .string | .untypedAtomic => cs
  | .normalizedString => Text.replaceBreaks cs
  | _ => Text.collapse cs

/-- The integer that a text stands for, within 128 bits. -/
def integerOfText? (cs : List Char) : Option Int :=
  let (negative, digits) := splitSign cs
  if isNumeral digits then
    let n : Int := digitsValue digits
    let i := if negative then -n else n
    if -(twoTo 127 : Int) ≤ i ∧ i < twoTo 127 then some i else none
  else none

/-- Reads a qualified name. A prefix cannot be resolved here. -/
def qnameOfText (fail : Error) (cs : List Char) : Except Error Atomic :=
  match splitAtFirst ':' cs with
  | none => if Text.isNcname cs then .ok (.qname none none (String.ofList cs)) else .error fail
  | some (p, l) =>
    if Text.isNcname p && Text.isNcname l then .error (.unresolvedPrefix (String.ofList p))
    else .error fail

/-- The value that a text with normalized white space stands for, in a type that is neither a text
type nor an integer type. -/
def ofCollapsed? (cs : List Char) : ItemType → Option Atomic
  | .boolean =>
    match String.ofList cs with
    | "true" | "1" => some (.boolean true)
    | "false" | "0" => some (.boolean false)
    | _ => none
  | .decimal => (Decimal.ofText? cs).map .decimal
  | .double => (Binary.doubleOfText? cs).map .double
  | .float => (Binary.doubleOfText? cs).map (.float ·.toFloat32)
  | .dateTime => (dateTimeOfText? cs).map fun (t, z) => .dateTime t z
  | .dateTimeStamp =>
    match dateTimeOfText? cs with
    | some (t, some z) => some (.dateTime t (some z))
    | _ => none
  | .date => (dateOfText? cs).map fun (d, z) => .date d z
  | .time => (timeOfText? cs).map fun (t, z) => .time t z
  | .yearMonthDuration => (readYearMonth? cs).map .yearMonthDuration
  | .dayTimeDuration => (readDayTime? cs).map .dayTimeDuration
  | .gYear => (withOffset readYear cs).map fun (y, z) => .gYear y z
  | .gYearMonth => (withOffset readYearAndMonth cs).map fun ((y, m), z) => .gYearMonth y m z
  | .gMonth => (withOffset readMonth cs).map fun (m, z) => .gMonth m z
  | .gMonthDay => (withOffset readMonthAndDay cs).map fun ((m, d), z) => .gMonthDay m d z
  | .gDay => (withOffset readDay cs).map fun (d, z) => .gDay d z
  | .hexBinary =>
    if (Text.decodeHex cs).isSome then some (.hexBinary (String.ofList (cs.map Char.toUpper)))
    else none
  | .base64Binary =>
    (Text.decodeBase64 (cs.filter (!Text.isBlank ·))).map fun bytes =>
      .base64Binary (String.ofList (Text.encodeBase64 bytes))
  | _ => none

/-- The value of a type that a text stands for. -/
def ofLexical (text : String) (target : ItemType) : Except Error Atomic :=
  let fail := Error.invalidLexical target text
  let cs := Text.collapse text.toList
  match TextType.ofItemType? target, IntegerType.ofItemType? target with
  | some t, _ =>
    let cs := normalizeBlanks text.toList t
    if isFormOf cs t then .ok (.text t (String.ofList cs)) else .error fail
  | none, some t =>
    match integerOfText? cs with
    | some i => ofInteger i t
    | none => .error fail
  | none, none =>
    if target = .qname then qnameOfText fail cs
    else
      match ofCollapsed? cs target with
      | some v => .ok v
      | none => .error fail

/-! ### Numbers -/

/-- A number as the source of a conversion. -/
inductive Number where
  | int (i : Int)
  | dec (d : Decimal)
  | dbl (x : Float)

/-- The number that a value stands for; a boolean counts as `0` or `1`. -/
def number? : Atomic → Option Number
  | boolean b => some (.int (if b then 1 else 0))
  | integer _ i => some (.int i)
  | decimal d => some (.dec d)
  | double x => some (.dbl x)
  | float x => some (.dbl x.toFloat)
  | _ => none

/-- What a double is if it is not finite. -/
def nonFinite? (x : Float) : Option NonFinite :=
  match Binary.datum x with
  | .nan => some .nan
  | .infinity negative => some (.infinity negative)
  | .finite .. => none

namespace Number

/-- As a double. -/
def toDouble : Number → Float
  | int i => Binary.ofInt i
  | dec d => d.toDouble
  | dbl x => x

/-- As a float. -/
def toFloat : Number → Float32
  | int i => Binary.ofInt32 i
  | dec d => d.toFloat
  | dbl x => x.toFloat32

/-- As a decimal. -/
def toDecimal (n : Number) : Except Error Decimal :=
  let fit (d : Option Decimal) : Except Error Decimal :=
    match d with
    | some d => .ok d
    | none => .error (.tooLargeFor .decimal)
  match n with
  | int i => fit (Decimal.ofInt? i)
  | dec d => .ok d
  | dbl x =>
    match nonFinite? x with
    | some v => .error (.castOfNonFinite v .decimal)
    | none => fit (Decimal.ofDouble? x)

/-- As an integer, truncated toward zero. -/
def toInteger (target : IntegerType) : Number → Except Error Int
  | int i => .ok i
  | dec d => .ok d.toInt
  | dbl x =>
    match nonFinite? x, (Binary.datum x).trunc? with
    | some v, _ => .error (.castOfNonFinite v target.itemType)
    | none, some i => if (1.7e38 : Float) ≤ x.abs then .error (.tooLargeFor .integer) else .ok i
    | none, none => .error (.tooLargeFor .integer)

end Number

/-- The number of a numeric type that a value stands for. -/
def toNumeric (v : Atomic) (target : ItemType) : Except Error Atomic :=
  match v.number? with
  | none => .error (.cannotCast v.itemType target)
  | some n =>
    match target, IntegerType.ofItemType? target with
    | .double, _ => .ok (.double n.toDouble)
    | .float, _ => .ok (.float n.toFloat)
    | .decimal, _ => n.toDecimal.map .decimal
    | _, some t => do ofInteger (← n.toInteger t) t
    | _, none => .error (.cannotCast .integer target)

/-- The truth of a number. -/
def Number.truth : Number → Bool
  | int i => i != 0
  | dec d => !d.isZero
  | dbl x => !(x.isNaN || x == 0.0)

/-! ### The casting table -/

/-- The value of one of the recurring date types that a date falls on. -/
def recurring? (d : Date) (offset : Option Offset) : ItemType → Option Atomic
  | .gYear => some (.gYear d.year offset)
  | .gYearMonth => some (.gYearMonth d.year d.month offset)
  | .gMonth => some (.gMonth d.month offset)
  | .gMonthDay => some (.gMonthDay d.month d.day offset)
  | .gDay => some (.gDay d.day offset)
  | _ => none

/-- The casts by meaning other than those to numbers. -/
def castByMeaning (v : Atomic) (target : ItemType) : Except Error Atomic :=
  let forbidden : Except Error Atomic := .error (.cannotCast v.itemType target)
  let orForbidden (r : Option Atomic) : Except Error Atomic :=
    match r with
    | some w => .ok w
    | none => forbidden
  match v, target with
  | v, .boolean =>
    match v.number? with
    | some n => .ok (.boolean n.truth)
    | none => forbidden
  | .dateTime t z, .date => .ok (.date t.date z)
  | .dateTime t z, .time => .ok (.time t.time z)
  | .date d z, .dateTime => .ok (.dateTime ⟨d, .midnight⟩ z)
  | .dateTime t z, g => orForbidden (recurring? t.date z g)
  | .date d z, g => orForbidden (recurring? d z g)
  | .yearMonthDuration _, .dayTimeDuration => .ok (.dayTimeDuration .zero)
  | .dayTimeDuration _, .yearMonthDuration => .ok (.yearMonthDuration 0)
  | .base64Binary s, .hexBinary =>
    match Text.decodeBase64 s.toList with
    | some bytes => .ok (.hexBinary (String.ofList (Text.encodeHex bytes)))
    | none => .error (.invalidLexical .base64Binary s)
  | .hexBinary s, .base64Binary =>
    match Text.decodeHex s.toList with
    | some bytes => .ok (.base64Binary (String.ofList (Text.encodeBase64 bytes)))
    | none => .error (.invalidLexical .hexBinary s)
  | _, _ => forbidden

/-- The value cast to a type. -/
def cast (v : Atomic) (target : ItemType) : Except Error Atomic :=
  let source := v.itemType
  if !target.isAtomic then .error (.cannotCast source target)
  else if !target.isInstantiable then .error (.notACastTarget target)
  else if source = target then .ok v
  else if target = .string then .ok (.text .string v.lexical)
  else if target = .untypedAtomic then .ok (.text .untypedAtomic v.lexical)
  else if source = .untypedAtomic || source.isStringLike then
    ofLexical (v.text?.getD "") target
  else if target.isStringLike then .error (.cannotCast source target)
  else if target.isNumeric then v.toNumeric target
  else v.castByMeaning target

end Atomic

end LazyXPath
