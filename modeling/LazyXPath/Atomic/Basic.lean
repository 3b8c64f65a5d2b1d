import LazyXPath.Error
import LazyXPath.Binary.Shortest
import LazyXPath.Calendar.Lexical

/-!
# Atomic values

An **atomic value** has a type and a payload. Types that share a way of being represented share a
constructor: texts (`TextType`) and integers (`IntegerType`). `Atomic.itemType` is the dynamic type
and `Atomic.lexical` the canonical text.

`Atomic.identical` compares constructor, type and payload. It is not an equivalence, because a number
that is not a number differs from itself; the two floating-point zeros are identical, and so are
decimals of the same value.
-/

namespace LazyXPath

open Calendar

/-- The types whose values are texts. -/
inductive TextType where
  | string
  | untypedAtomic
  | anyUri
  | normalizedString
  | token
  | language
  | name
  | ncname
  | nmtoken
  | id
  | idref
  | entity
deriving DecidableEq, Inhabited

namespace TextType

/-- The item type. -/
def itemType : TextType → ItemType
  | string => .string
  | untypedAtomic => .untypedAtomic
  | anyUri => .anyUri
  | normalizedString => .normalizedString
  | token => .token
  | language => .language
  | name => .name
  | ncname => .ncname
  | nmtoken => .nmtoken
  | id => .id
  | idref => .idref
  | entity => .entity

/-- All of them. -/
def all : List TextType :=
  [string, untypedAtomic, anyUri, normalizedString, token, language, name, ncname, nmtoken, id,
    idref, entity]

/-- The text type with the given item type. -/
def ofItemType? (t : ItemType) : Option TextType := all.find? (·.itemType = t)

end TextType

/-- The types whose values are integers. -/
inductive IntegerType where
  | integer
  | nonPositiveInteger
  | negativeInteger
  | long
  | int
  | short
  | byte
  | nonNegativeInteger
  | positiveInteger
  | unsignedLong
  | unsignedInt
  | unsignedShort
  | unsignedByte
deriving DecidableEq, Inhabited

namespace IntegerType

/-- The item type. -/
def itemType : IntegerType → ItemType
  | integer => .integer
  | nonPositiveInteger => .nonPositiveInteger
  | negativeInteger => .negativeInteger
  | long => .long
  | int => .int
  | short => .short
  | byte => .byte
  | nonNegativeInteger => .nonNegativeInteger
  | positiveInteger => .positiveInteger
  | unsignedLong => .unsignedLong
  | unsignedInt => .unsignedInt
  | unsignedShort => .unsignedShort
  | unsignedByte => .unsignedByte

/-- All of them. -/
def all : List IntegerType :=
  [integer, nonPositiveInteger, negativeInteger, long, int, short, byte, nonNegativeInteger,
    positiveInteger, unsignedLong, unsignedInt, unsignedShort, unsignedByte]

/-- The integer type with the given item type. -/
def ofItemType? (t : ItemType) : Option IntegerType := all.find? (·.itemType = t)

/-- The least value. -/
def least : IntegerType → Int
  | integer | long | nonPositiveInteger | negativeInteger => -(twoTo 63)
  | int => -(twoTo 31)
  | short => -(twoTo 15)
  | byte => -(twoTo 7)
  | positiveInteger => 1
  | nonNegativeInteger | unsignedLong | unsignedInt | unsignedShort | unsignedByte => 0

/-- The greatest value. -/
def greatest : IntegerType → Int
  | integer | long => twoTo 63 - 1
  | nonPositiveInteger => 0
  | negativeInteger => -1
  | int => twoTo 31 - 1
  | short => twoTo 15 - 1
  | byte => twoTo 7 - 1
  | nonNegativeInteger | positiveInteger | unsignedLong => twoTo 64 - 1
  | unsignedInt => twoTo 32 - 1
  | unsignedShort => twoTo 16 - 1
  | unsignedByte => twoTo 8 - 1

/-- Whether an integer is in the value range. -/
def holds (t : IntegerType) (i : Int) : Bool := t.least ≤ i && i ≤ t.greatest

end IntegerType

/-- An atomic value. -/
inductive Atomic where
  | boolean (value : Bool)
  | text (type : TextType) (value : String)
  | integer (type : IntegerType) (value : Int)
  | decimal (value : Decimal)
  | double (value : Float)
  | float (value : Float32)
  | qname (space mark : Option String) (localPart : String)
  | dateTime (value : DateTime) (offset : Option Offset)
  | date (value : Date) (offset : Option Offset)
  | time (value : TimeOfDay) (offset : Option Offset)
  | yearMonthDuration (months : Int)
  | dayTimeDuration (seconds : Decimal)
  | gYear (year : Int) (offset : Option Offset)
  | gYearMonth (year : Int) (month : Nat) (offset : Option Offset)
  | gMonth (month : Nat) (offset : Option Offset)
  | gMonthDay (month day : Nat) (offset : Option Offset)
  | gDay (day : Nat) (offset : Option Offset)
  | base64Binary (value : String)
  | hexBinary (value : String)

namespace Atomic

instance : Inhabited Atomic := ⟨boolean false⟩

/-- The dynamic type of a value. -/
def itemType : Atomic → ItemType
  | boolean _ => .boolean
  | text t _ => t.itemType
  | integer t _ => t.itemType
  | decimal _ => .decimal
  | double _ => .double
  | float _ => .float
  | qname .. => .qname
  | dateTime .. => .dateTime
  | date .. => .date
  | time .. => .time
  | yearMonthDuration _ => .yearMonthDuration
  | dayTimeDuration _ => .dayTimeDuration
  | gYear .. => .gYear
  | gYearMonth .. => .gYearMonth
  | gMonth .. => .gMonth
  | gMonthDay .. => .gMonthDay
  | gDay .. => .gDay
  | base64Binary _ => .base64Binary
  | hexBinary _ => .hexBinary

/-- The text of a value of a text type. -/
def text? : Atomic → Option String
  | text _ s => some s
  | _ => none

/-- The integer of a value of an integer type. -/
def integer? : Atomic → Option Int
  | integer _ i => some i
  | _ => none

/-- An `xs:string`. -/
def ofString (s : String) : Atomic := text .string s

/-- An `xs:integer`. -/
def ofInt (i : Int) : Atomic := integer .integer i

/-- The canonical text of a value. -/
def lexical : Atomic → String
  | boolean b => if b then "true" else "false"
  | text _ s => s
  | integer _ i => toString i
  | decimal d => d.toText
  | double x => Binary.doubleText x
  | float x => Binary.floatText x
  | qname _ (some p) l => if p.isEmpty then l else p ++ ":" ++ l
  | qname _ none l => l
  | dateTime t z => dateTimeText t z
  | date d z => dateText d z
  | time t z => timeText t z
  | yearMonthDuration m => yearMonthText m
  | dayTimeDuration s => dayTimeText s
  | gYear y z => yearLiteral y z
  | gYearMonth y m z => yearMonthLiteral y m z
  | gMonth m z => monthLiteral m z
  | gMonthDay m d z => monthDayLiteral m d z
  | gDay d z => dayLiteral d z
  | base64Binary s => s
  | hexBinary s => s

/-- Whether two values have the same type and the same payload. -/
def identical : Atomic → Atomic → Bool
  | boolean a, boolean b => a == b
  | text t a, text u b => t == u && a == b
  | integer t a, integer u b => t == u && a == b
  | decimal a, decimal b => a.sameValue b
  | double a, double b => a == b
  | float a, float b => a == b
  | qname s p l, qname s' p' l' => s == s' && p == p' && l == l'
  | dateTime a z, dateTime b y => a == b && z == y
  | date a z, date b y => a == b && z == y
  | time a z, time b y => a == b && z == y
  | yearMonthDuration a, yearMonthDuration b => a == b
  | dayTimeDuration a, dayTimeDuration b => a.sameValue b
  | gYear a z, gYear b y => a == b && z == y
  | gYearMonth a m z, gYearMonth b n y => a == b && m == n && z == y
  | gMonth m z, gMonth n y => m == n && z == y
  | gMonthDay m d z, gMonthDay n e y => m == n && d == e && z == y
  | gDay d z, gDay e y => d == e && z == y
  | base64Binary a, base64Binary b => a == b
  | hexBinary a, hexBinary b => a == b
  | _, _ => false

end Atomic

end LazyXPath
