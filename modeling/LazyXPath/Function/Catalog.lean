import LazyXPath.Function.Registry

/-!
# The catalog

The functions that are there from the start: booleans, sequences, strings, numbers, the clock, the
focus, and one constructor for each type of which there are values.
-/

namespace LazyXPath

/-- An entry of the catalog. -/
structure CatalogEntry where
  name : Name
  params : List SequenceType
  rest : Option SequenceType := none
  returns : SequenceType
  builtin : Builtin

namespace CatalogEntry

/-- A function of the functions namespace with a fixed number of parameters. -/
def fixed (name : String) (params : List SequenceType) (returns : SequenceType) (builtin : Builtin) :
    CatalogEntry :=
  { name := .inSpace .functions name, params, returns, builtin }

/-- The constructor of a type. -/
def constructor? (t : ItemType) : Option CatalogEntry :=
  match t.isAtomic && t.isInstantiable, t.schemaName? with
  | true, some name => some {
      name := .inSpace .schema name
      params := [⟨.anyAtomic, .optional⟩]
      returns := ⟨t, .optional⟩
      builtin := .construct t }
  | _, _ => none

/-- The entry as a function. -/
def function (identity : Nat) (e : CatalogEntry) : Function :=
  { identity
    name := some e.name
    signature := ⟨e.params, e.rest, e.returns⟩
    callable := .builtin e.builtin }

end CatalogEntry

/-- The entries of the catalog. -/
def catalog : List CatalogEntry :=
  [.fixed "true" [] ⟨.boolean, .one⟩ .yes,
    .fixed "false" [] ⟨.boolean, .one⟩ .no,
    .fixed "not" [.anything] ⟨.boolean, .one⟩ .not,
    .fixed "boolean" [.anything] ⟨.boolean, .one⟩ .boolean,
    .fixed "empty" [.anything] ⟨.boolean, .one⟩ .empty,
    .fixed "exists" [.anything] ⟨.boolean, .one⟩ .nonempty,
    .fixed "count" [.anything] ⟨.integer, .one⟩ .count,
    .fixed "head" [.anything] ⟨.item, .optional⟩ .head,
    .fixed "tail" [.anything] .anything .tail,
    .fixed "data" [] ⟨.anyAtomic, .many⟩ .data,
    .fixed "data" [.anything] ⟨.anyAtomic, .many⟩ .data,
    .fixed "string" [] ⟨.string, .one⟩ .string,
    .fixed "string" [⟨.item, .optional⟩] ⟨.string, .one⟩ .string,
    .fixed "string-length" [] ⟨.integer, .one⟩ .stringLength,
    .fixed "string-length" [⟨.string, .optional⟩] ⟨.integer, .one⟩ .stringLength,
    { name := .inSpace .functions "concat"
      params := [⟨.anyAtomic, .optional⟩, ⟨.anyAtomic, .optional⟩]
      rest := some ⟨.anyAtomic, .optional⟩
      returns := ⟨.string, .one⟩
      builtin := .concat },
    .fixed "abs" [⟨.numeric, .optional⟩] ⟨.numeric, .optional⟩ .abs,
    .fixed "current-dateTime" [] ⟨.dateTime, .one⟩ .currentDateTime,
    .fixed "current-date" [] ⟨.date, .one⟩ .currentDate,
    .fixed "current-time" [] ⟨.time, .one⟩ .currentTime,
    .fixed "implicit-timezone" [] ⟨.dayTimeDuration, .one⟩ .implicitTimezone,
    .fixed "position" [] ⟨.integer, .one⟩ .position,
    .fixed "last" [] ⟨.integer, .one⟩ .last]
  ++ ItemType.all.filterMap CatalogEntry.constructor?

/-- The registry of the catalog. The identity of a function is its place in the catalog. -/
def Registry.standard : Registry :=
  catalog.zipIdx.foldl (fun r (e, i) => r.register e.name (e.function i)) .empty

end LazyXPath
