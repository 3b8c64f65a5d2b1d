import LazyXPath.Name

/-!
# Item types

Every item has one **item type**. The types form a directed acyclic graph with the root `item()`:
the main edges follow the derivation of the schema types (`ItemType.base?`), and three secondary
edges make `xs:decimal`, `xs:float` and `xs:double` members of the union `xs:numeric`
(`ItemType.union?`). `ItemType.isSubtypeOf` is reachability along both kinds of edges, and
`ItemType.primitive` is the first promotion root on the derivation chain.
-/

namespace LazyXPath

/-- The item types, in listing order. -/
inductive ItemType where
  | item
  | anyAtomic
  | untypedAtomic
  | numeric
  | string
  | normalizedString
  | token
  | language
  | nmtoken
  | name
  | ncname
  | id
  | idref
  | entity
  | boolean
  | decimal
  | integer
  | nonPositiveInteger
  | negativeInteger
  | long
  | int
  | short
  | byte
  | nonNegativeInteger
  | positiveInteger
  | unsignedLong
  | unsignedInt
  | unsignedShort
  | unsignedByte
  | float
  | double
  | duration
  | yearMonthDuration
  | dayTimeDuration
  | dateTime
  | dateTimeStamp
  | date
  | time
  | gYearMonth
  | gYear
  | gMonthDay
  | gDay
  | gMonth
  | base64Binary
  | hexBinary
  | anyUri
  | qname
  | notationName
  | node
  | documentNode
  | elementNode
  | attributeNode
  | textNode
  | commentNode
  | instructionNode
  | namespaceNode
  | function
  | map
  | array
deriving DecidableEq, Inhabited

namespace ItemType

/-- All item types in listing order. -/
def all : List ItemType :=
  [item, anyAtomic, untypedAtomic, numeric, string, normalizedString, token, language, nmtoken,
    name, ncname, id, idref, entity, boolean, decimal, integer, nonPositiveInteger,
    negativeInteger, long, int, short, byte, nonNegativeInteger, positiveInteger, unsignedLong,
    unsignedInt, unsignedShort, unsignedByte, float, double, duration, yearMonthDuration,
    dayTimeDuration, dateTime, dateTimeStamp, date, time, gYearMonth, gYear, gMonthDay, gDay,
    gMonth, base64Binary, hexBinary, anyUri, qname, notationName, node, documentNode, elementNode,
    attributeNode, textNode, commentNode, instructionNode, namespaceNode, function, map, array]

/-- The name of a schema type without its `xs:`; the other types have none. -/
def schemaName? : ItemType → Option String
  | anyAtomic => some "anyAtomicType"
  | untypedAtomic => some "untypedAtomic"
  | numeric => some "numeric"
  | string => some "string"
  | normalizedString => some "normalizedString"
  | token => some "token"
  | language => some "language"
  | nmtoken => some "NMTOKEN"
  | name => some "Name"
  | ncname => some "NCName"
  | id => some "ID"
  | idref => some "IDREF"
  | entity => some "ENTITY"
  | boolean => some "boolean"
  | decimal => some "decimal"
  | integer => some "integer"
  | nonPositiveInteger => some "nonPositiveInteger"
  | negativeInteger => some "negativeInteger"
  | long => some "long"
  | int => some "int"
  | short => some "short"
  | byte => some "byte"
  | nonNegativeInteger => some "nonNegativeInteger"
  | positiveInteger => some "positiveInteger"
  | unsignedLong => some "unsignedLong"
  | unsignedInt => some "unsignedInt"
  | unsignedShort => some "unsignedShort"
  | unsignedByte => some "unsignedByte"
  | float => some "float"
  | double => some "double"
  | duration => some "duration"
  | yearMonthDuration => some "yearMonthDuration"
  | dayTimeDuration => some "dayTimeDuration"
  | dateTime => some "dateTime"
  | dateTimeStamp => some "dateTimeStamp"
  | date => some "date"
  | time => some "time"
  | gYearMonth => some "gYearMonth"
  | gYear => some "gYear"
  | gMonthDay => some "gMonthDay"
  | gDay => some "gDay"
  | gMonth => some "gMonth"
  | base64Binary => some "base64Binary"
  | hexBinary => some "hexBinary"
  | anyUri => some "anyURI"
  | qname => some "QName"
  | notationName => some "NOTATION"
  | _ => none

/-- The spelling of a type that is not a schema type. -/
def kindName : ItemType → String
  | item => "item()"
  | node => "node()"
  | documentNode => "document-node()"
  | elementNode => "element()"
  | attributeNode => "attribute()"
  | textNode => "text()"
  | commentNode => "comment()"
  | instructionNode => "processing-instruction()"
  | namespaceNode => "namespace-node()"
  | function => "function(*)"
  | map => "map(*)"
  | array => "array(*)"
  | _ => ""

/-- The spelling of a type in a sequence type. -/
def display (t : ItemType) : String :=
  match t.schemaName? with
  | some s => "xs:" ++ s
  | none => t.kindName

/-- The type with the given spelling. -/
def ofDisplay? (s : String) : Option ItemType := all.find? (·.display = s)

/-- The schema type with the given local name. -/
def ofSchemaName? (s : String) : Option ItemType := all.find? (·.schemaName? = some s)

/-! ### The type graph -/

/-- The type that a type is derived from. -/
def base? : ItemType → Option ItemType
  | item => none
  | anyAtomic | node | function => some item
  | untypedAtomic | numeric | string | boolean | decimal | float | double | duration | dateTime
  | date | time | gYearMonth | gYear | gMonthDay | gDay | gMonth | base64Binary | hexBinary
  | anyUri | qname | notationName => some anyAtomic
  | normalizedString => some string
  | token => some normalizedString
  | language | nmtoken | name => some token
  | ncname => some name
  | id | idref | entity => some ncname
  | integer => some decimal
  | nonPositiveInteger | long | nonNegativeInteger => some integer
  | negativeInteger => some nonPositiveInteger
  | int => some long
  | short => some int
  | byte => some short
  | positiveInteger | unsignedLong => some nonNegativeInteger
  | unsignedInt => some unsignedLong
  | unsignedShort => some unsignedInt
  | unsignedByte => some unsignedShort
  | yearMonthDuration | dayTimeDuration => some duration
  | dateTimeStamp => some dateTime
  | documentNode | elementNode | attributeNode | textNode | commentNode | instructionNode
  | namespaceNode => some node
  | map | array => some function

/-- The union type that a type belongs to directly. -/
def union? : ItemType → Option ItemType
  | decimal | float | double => some numeric
  | _ => none

/-- The number of derivation steps from a type to `item()`. -/
def depth : ItemType → Nat
  | item => 0
  | anyAtomic | node | function => 1
  | normalizedString => 3
  | token => 4
  | language | nmtoken | name => 5
  | ncname => 6
  | id | idref | entity => 7
  | integer => 3
  | nonPositiveInteger | long | nonNegativeInteger => 4
  | negativeInteger => 5
  | int => 5
  | short => 6
  | byte => 7
  | positiveInteger | unsignedLong => 5
  | unsignedInt => 6
  | unsignedShort => 7
  | unsignedByte => 8
  | yearMonthDuration | dayTimeDuration | dateTimeStamp => 3
  | _ => 2

/-- A type is one step deeper than the type it is derived from. -/
theorem depth_of_base? {t b : ItemType} (h : t.base? = some b) : t.depth = b.depth + 1 := by
  cases t <;> simp_all [base?] <;> subst h <;> rfl

/-- The first `n` derivation steps from a type, starting with the type itself. -/
def derivation : Nat → ItemType → List ItemType
  | 0, t => [t]
  | n + 1, t =>
    t :: match t.base? with
      | none => []
      | some b => derivation n b

/-- The derivation chain of a type, from the type itself to `item()`. -/
def chain (t : ItemType) : List ItemType := derivation t.depth t

/-- `t.isSubtypeOf u` says that `u` is reached from `t` along derivation and membership in a
union. -/
def isSubtypeOf (t u : ItemType) : Bool :=
  t.chain.any fun s => s == u || s.union? == some u

/-- The types at which promotion starts: the primitive schema types together with `xs:integer`
and the two ordered kinds of durations. -/
def isPromotionRoot : ItemType → Bool
  | untypedAtomic | string | boolean | decimal | integer | float | double | duration
  | yearMonthDuration | dayTimeDuration | dateTime | date | time | gYearMonth | gYear | gMonthDay
  | gDay | gMonth | base64Binary | hexBinary | anyUri | qname | notationName => true
  | _ => false

/-- The promotion root of a type; a type without one is its own. -/
def primitive (t : ItemType) : ItemType := (t.chain.find? isPromotionRoot).getD t

/-- Atomic types. -/
def isAtomic (t : ItemType) : Bool := t.isSubtypeOf anyAtomic

/-- Numeric types. -/
def isNumeric (t : ItemType) : Bool := t.isSubtypeOf numeric

/-- Node types. -/
def isNode (t : ItemType) : Bool := t.isSubtypeOf node

/-- `xs:string` and the types derived from it. -/
def isStringLike (t : ItemType) : Bool := t.isSubtypeOf string

/-- The types that have values of their own. The roots, the unions and `xs:NOTATION` have none. -/
def isInstantiable : ItemType → Bool
  | item | anyAtomic | numeric | notationName | duration | node | function => false
  | _ => true

end ItemType

/-! ### Sequence types -/

/-- How many items a sequence type allows. -/
inductive Occurrence where
  | one
  | optional
  | many
  | some
deriving DecidableEq, Inhabited

namespace Occurrence

/-- The occurrence indicator. -/
def indicator : Occurrence → String
  | one => ""
  | optional => "?"
  | many => "*"
  | some => "+"

/-- Whether more than one item is refused. -/
def atMostOne : Occurrence → Bool
  | one | optional => true
  | _ => false

/-- Whether the empty sequence is refused. -/
def atLeastOne : Occurrence → Bool
  | one | some => true
  | _ => false

end Occurrence

/-- A sequence type: an item type and the number of items. -/
structure SequenceType where
  item : ItemType
  occurrence : Occurrence
deriving DecidableEq, Inhabited

namespace SequenceType

/-- The spelling of a sequence type. -/
def display (s : SequenceType) : String := s.item.display ++ s.occurrence.indicator

/-- The sequence type with the given spelling. -/
def ofDisplay? (text : String) : Option SequenceType :=
  match ItemType.ofDisplay? text with
  | Option.some t => Option.some ⟨t, .one⟩
  | none =>
    let kind := (ItemType.ofDisplay? (text.dropEnd 1).copy)
    if text.endsWith "?" then kind.map (⟨·, .optional⟩)
    else if text.endsWith "*" then kind.map (⟨·, .many⟩)
    else if text.endsWith "+" then kind.map (⟨·, .some⟩)
    else none

/-- `item()*`, which every sequence satisfies. -/
def anything : SequenceType := ⟨.item, .many⟩

/-- Whether the type is `item()*`. -/
def isAnything (s : SequenceType) : Bool := s.item == .item && s.occurrence == .many

end SequenceType

/-- The parameters and the result of a function. A `rest` type, if there is one, is the type of
every argument after the declared parameters. -/
structure Signature where
  params : List SequenceType
  rest : Option SequenceType := none
  returns : SequenceType
deriving DecidableEq, Inhabited

namespace Signature

/-- The number of declared parameters. -/
def arity (s : Signature) : Nat := s.params.length

/-- Whether a call with `n` arguments is allowed. -/
def accepts (s : Signature) (n : Nat) : Bool :=
  if s.rest.isSome then s.arity ≤ n else n == s.arity

/-- The type of argument number `i`. -/
def param? (s : Signature) (i : Nat) : Option SequenceType := s.params[i]?.or s.rest

/-- The signature for exactly `n` arguments. -/
def expand (s : Signature) (n : Nat) : Signature :=
  { params := (List.range n).filterMap s.param?, returns := s.returns }

end Signature

end LazyXPath
