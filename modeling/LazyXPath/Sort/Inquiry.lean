/-!
# Inquiries

A sort learns about its elements only by asking which of two comes before the other. An **inquiry** is a computation of
this kind: it asks and goes on according to the answer, until it is done or finds that the answers contradict each
other.

The answers may come from a comparison that can fail. A failure counts as the answer that neither element comes before
the other, and the first one is kept on the side (`Inquiry.record`).
-/

namespace LazyXPath

/-- A computation that asks whether one element comes before another. -/
inductive Inquiry (α β : Type) where
  | done (result : β)
  | ask (a b : α) (next : Bool → Inquiry α β)
  /-- The answers belong to no order. -/
  | broken

namespace Inquiry

variable {α β γ ε : Type}

/-- Goes on with a result. -/
def bind : Inquiry α β → (β → Inquiry α γ) → Inquiry α γ
  | done result, f => f result
  | ask a b next, f => ask a b fun answer => (next answer).bind f
  | broken, _ => broken

instance : Monad (Inquiry α) where
  pure := done
  bind := bind

/-- Asks whether one element comes before another. -/
def before (a b : α) : Inquiry α Bool := ask a b done

/-- The result when a relation gives the answers, if the inquiry does not break. -/
def answer (less : α → α → Bool) : Inquiry α β → Option β
  | done result => some result
  | ask a b next => (next (less a b)).answer less
  | broken => none

/-- The pairs that are asked about when a relation gives the answers. -/
def asked (less : α → α → Bool) : Inquiry α β → List (α × α)
  | done _ | broken => []
  | ask a b next => (a, b) :: (next (less a b)).asked less

/-- The answer that a comparison gives. -/
def isLess : Except ε Ordering → Bool
  | .ok .lt => true
  | _ => false

/-- What a comparison has failed with. -/
def failure? : Except ε Ordering → Option ε
  | .ok _ => none
  | .error e => some e

/-- The result when a comparison that can fail gives the answers, and the first failure, if there was none before. -/
def record (compare : α → α → Except ε Ordering) (failure : Option ε) : Inquiry α β → Option β × Option ε
  | done result => (some result, failure)
  | ask a b next =>
    let r := compare a b
    (next (isLess r)).record compare (failure.or (failure? r))
  | broken => (none, failure)

end Inquiry

end LazyXPath
