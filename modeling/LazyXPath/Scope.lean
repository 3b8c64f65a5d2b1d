import LazyXPath.Item

/-!
# Scopes

A **scope** is what an expression sees of its surroundings: variables, a focus, and the settings of
the evaluation. Scopes are immutable; a binding or a focus is put on top of a scope and hides what is
below it.

A variable holds a sequence that can be read any number of times, a **replay**: items at hand, a shared
buffer, or a description from which the sequence is made again for every reading.
-/

namespace LazyXPath

open Calendar

/-- The settings of an evaluation. -/
structure Settings where
  /-- The local time of the evaluation. -/
  now : DateTime
  nowOffset : Offset
  /-- The offset of times that have none. -/
  timezone : Offset
  /-- The namespaces that were given marks, the latest first. -/
  spaces : List (String × String)
  /-- The namespace of functions whose name has none. -/
  functionSpace : Option String
deriving Inhabited

namespace Settings

/-- The namespaces that have marks in every evaluation. -/
def standardSpaces : List (String × String) :=
  [("xml", "http://www.w3.org/XML/1998/namespace"), ("xs", Reserved.schema.uri),
    ("fn", Reserved.functions.uri), ("err", Reserved.errors.uri)]

/-- The settings of an evaluation at a local time: universal time is the default for other times, and
functions are looked up in their reserved namespace. -/
def atTime (now : DateTime) (offset : Offset) : Settings :=
  ⟨now, offset, ⟨0⟩, standardSpaces, some Reserved.functions.uri⟩

/-- Sets the timezone to a number of minutes, if this is less than a day. -/
def withTimezone (s : Settings) (minutes : Int) : Settings :=
  match Offset.ofSeconds? (minutes * 60) with
  | some offset => { s with timezone := offset }
  | none => s

/-- The timezone as a number of seconds. -/
def timezoneSeconds (s : Settings) : Decimal := (Decimal.ofInt? s.timezone.seconds).getD .zero

/-- Gives a namespace a mark. The mark `xml` cannot be given away. -/
def withSpace (s : Settings) (mark uri : String) : Settings :=
  if mark = "xml" then s else { s with spaces := (mark, uri) :: s.spaces }

/-- The namespace with a mark. -/
def space? (s : Settings) (mark : String) : Option String := s.spaces.lookup mark

end Settings

/-- The number of a shared buffer. -/
abbrev BufferId := Nat

mutual

/-- A scope. -/
inductive Scope where
  | root (settings : Settings)
  /-- A focus: the context item, its position, the number of items if it is known, and the sequence of
  the items if there is one. -/
  | focus (outer : Scope) (item : Item) (position : Nat) (size : Option Nat)
      (sequence : Option Replay)
  | binding (outer : Scope) (name : Name) (value : Replay)

/-- A sequence that can be read any number of times. -/
inductive Replay where
  | items (xs : List Item)
  | buffered (b : BufferId)
  /-- The value of an expression. -/
  | evaluated (e : Expr) (scope : Scope)
  /-- A sequence supplied by a host; each reading is recorded. -/
  | regenerated (s : Source) (scope : Scope)
  /-- The value of a variable supplied by a host; each reading is recorded under its name. -/
  | produced (name : Name) (s : Source) (settings : Settings)

end

/-- A focus. -/
structure Focus where
  item : Item
  position : Nat
  size : Option Nat
  sequence : Option Replay

instance : Inhabited Scope := ⟨.root default⟩

namespace Focus

/-- The focus on one item. -/
def single (x : Item) : Focus := ⟨x, 1, some 1, none⟩

/-- The focus on the first of several items. -/
def first? : List Item → Option Focus
  | [] => none
  | x :: xs => some ⟨x, 1, some (xs.length + 1), some (.items (x :: xs))⟩

end Focus

namespace Scope

/-- The settings. -/
def settings : Scope → Settings
  | root s => s
  | focus outer .. => outer.settings
  | binding outer .. => outer.settings

/-- Puts a focus on top. -/
def withFocus (scope : Scope) (f : Focus) : Scope :=
  .focus scope f.item f.position f.size f.sequence

/-- The innermost focus. -/
def focus? : Scope → Option Focus
  | root _ => none
  | focus _ item position size sequence => some ⟨item, position, size, sequence⟩
  | binding outer .. => outer.focus?

/-- The innermost value of a variable. -/
def value? (x : Name) : Scope → Option Replay
  | root _ => none
  | focus outer .. => outer.value? x
  | binding outer name value => if name = x then some value else outer.value? x

/-- The context item. -/
def contextItem (scope : Scope) : Except Error Item :=
  match scope.focus? with
  | some f => .ok f.item
  | none => .error (.absentFocus .item)

/-- The context position. -/
def contextPosition (scope : Scope) : Except Error Nat :=
  match scope.focus? with
  | some f => .ok f.position
  | none => .error (.absentFocus .position)

end Scope

end LazyXPath
