import LazyXPath.Atomic.Basic
import LazyXPath.Decimal.Binary

/-!
# Keys of maps

Two values are the same key of a map if they are numbers of the same value, texts of the same
characters, or identical values of the same primitive type. Floating-point numbers are compared
through their decimals; those without a decimal are not the same key as anything, except that a
number that is not a number is the same key as another one of its own type.
-/

namespace LazyXPath.Atomic

/-- The decimal of a number. -/
def decimal? : Atomic → Option Decimal
  | decimal d => some d
  | double x => Decimal.ofDouble? x
  | float x => Decimal.ofFloat? x
  | integer _ i => Decimal.ofInt? i
  | _ => none

/-- Whether both values are not a number, of the same type. -/
def bothNaN : Atomic → Atomic → Bool
  | double x, double y => x.isNaN && y.isNaN
  | float x, float y => x.isNaN && y.isNaN
  | _, _ => false

/-- Whether two values are the same key. -/
def sameKey (a b : Atomic) : Bool :=
  if a.itemType.isNumeric && b.itemType.isNumeric then
    match a.decimal?, b.decimal? with
    | some x, some y => x.sameValue y
    | _, _ => bothNaN a b
  else
    match a.text?, b.text? with
    | some x, some y => x == y
    | _, _ => a.itemType.primitive == b.itemType.primitive && a.identical b

end LazyXPath.Atomic
