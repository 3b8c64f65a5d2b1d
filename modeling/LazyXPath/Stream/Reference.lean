import LazyXPath.World

/-!
# What a stream refers to

A stream refers to values that arrive later and to shared buffers: by its cursors, by the items that
these hold, by the expressions they still have to evaluate, and by the scopes they do this in. An item
refers to something only if it is a function whose arguments have been given in part; they are in
buffers. A source that a host has described, but that is still to be set up, refers to nothing.

What a stream has read stays with it up to its end or an error. A value to which nothing refers any
more cannot be seen when it arrives (`World.canSee`).
-/

namespace LazyXPath

/-- Something a stream refers to. -/
inductive Reference where
  | value (d : DeferredId)
  | buffer (b : BufferId)
deriving DecidableEq

/-! ### Items -/

mutual

/-- What a function refers to. -/
def Function.references : Function → List Reference
  | ⟨_, _, _, callable⟩ => callableReferences callable

/-- What a way of being called refers to. -/
def callableReferences : CallableOf (ItemOf Function) Function → List Reference
  | .partially target bound => target.references ++ bound.filterMap (·.map .buffer)
  | .overloaded _ candidates => functionsReferences candidates
  | _ => []

/-- What several functions refer to. -/
def functionsReferences : List Function → List Reference
  | [] => []
  | f :: fs => f.references ++ functionsReferences fs

end

/-- What an item refers to. The functions in maps and arrays are those of a registry, which refer to
nothing. -/
def Item.references : Item → List Reference
  | .function f => f.references
  | _ => []

/-- What several items refer to. -/
def itemsReferences (xs : List Item) : List Reference := xs.flatMap Item.references

/-- What an item refers to that may be missing. -/
def optionalReferences (x : Option Item) : List Reference := itemsReferences x.toList

/-- The values that a script waits for. -/
def scriptReferences (steps : List (ScriptStep Item)) : List Reference :=
  steps.filterMap fun
    | .await d => some (.value d)
    | _ => none

/-! ### Expressions and scopes -/

mutual

/-- What an expression refers to. -/
def exprReferences : Expr → List Reference
  | .sequence parts => exprsReferences parts
  | .range a b | .arithmetic _ a b | .comparison _ a b | .conjunction a b | .disjunction a b
  | .letIn _ a b | .forIn _ a b | .simpleMap a b | .filter a b | .path a b =>
    exprReferences a ++ exprReferences b
  | .sign _ a => exprReferences a
  | .conditional a b c => exprReferences a ++ exprReferences b ++ exprReferences c
  | .call _ arguments => argumentsReferences arguments
  | .dynamicCall target arguments => exprReferences target ++ argumentsReferences arguments
  | .deferred d => [.value d]
  | _ => []

/-- What several expressions refer to. -/
def exprsReferences : List Expr → List Reference
  | [] => []
  | e :: es => exprReferences e ++ exprsReferences es

/-- What arguments refer to. -/
def argumentsReferences : List (Option Expr) → List Reference
  | [] => []
  | a :: rest => argumentReferences a ++ argumentsReferences rest

/-- What an argument refers to. -/
def argumentReferences : Option Expr → List Reference
  | none => []
  | some e => exprReferences e

end

mutual

/-- What a scope refers to. -/
def Scope.references : Scope → List Reference
  | .root _ => []
  | .focus outer item _ _ sequence =>
    outer.references ++ Item.references item ++ optionReferences sequence
  | .binding outer _ value => outer.references ++ value.references

/-- What a sequence that can be read again refers to. -/
def Replay.references : Replay → List Reference
  | .items xs => itemsReferences xs
  | .buffered b => [.buffer b]
  | .evaluated e scope => exprReferences e ++ scope.references
  | .regenerated _ scope => scope.references
  | .produced .. => []

/-- What the sequence of a focus refers to. -/
def optionReferences : Option Replay → List Reference
  | none => []
  | some r => r.references

end

/-! ### Streams -/

/-- What the description of an inner sequence refers to. -/
def Expander.references : Expander → List Reference
  | .host _ => []
  | .keep x => Item.references x
  | .branch yes no scope => exprReferences yes ++ exprReferences no ++ scope.references
  | .decide _ right scope => exprReferences right ++ scope.references
  | .bindEach _ body scope => exprReferences body ++ scope.references
  | .focusEach _ body scope _ sequence _ =>
    exprReferences body ++ scope.references ++ optionReferences sequence

/-- What the description of a combination refers to. -/
def Combiner.references : Combiner → List Reference
  | .call arguments scope => argumentsReferences arguments ++ scope.references
  | _ => []

/-- What a call refers to whose function is still to be chosen. -/
def Dispatch.references (d : Dispatch) : List Reference :=
  functionsReferences d.candidates ++ d.scope.references

mutual

/-- What a cursor refers to. -/
def Cursor.references : Cursor → List Reference
  | .items xs | .emit xs => itemsReferences xs
  | .script _ steps _ => scriptReferences steps
  | .deferred d _ => [.value d]
  | .reader b _ => [.buffer b]
  | .map _ s | .filter _ s | .take _ s | .atomize _ s | .forward s | .truth _ _ s | .count _ s
  | .presence _ _ s | .spent s => streamReferences s
  | .collect _ seen s => itemsReferences seen ++ streamReferences s
  | .convert c s => itemsReferences c.pending ++ streamReferences s
  | .outer f s => f.references ++ streamReferences s
  | .inner f s t => f.references ++ streamReferences s ++ streamReferences t
  | .concat s rest => streamReferences s ++ streamsReferences rest
  | .zip f before current found after _ =>
    f.references ++ slotsReferences before ++ streamReferences current ++
      optionalReferences found ++ slotsReferences after
  | .combine f found => f.references ++ found.flatMap optionalReferences
  | .gather d gathered seen current rest =>
    d.references ++ gathered.flatMap itemsReferences ++ itemsReferences seen ++
      streamReferences current ++ streamsReferences rest
  | .dispatch d arguments => d.references ++ arguments.flatMap itemsReferences
  | _ => []

/-- What a stream refers to. -/
def streamReferences : StreamOf Item Cursor → List Reference
  | ⟨ahead, status⟩ => itemsReferences ahead ++ statusReferences status

/-- What the status of a stream refers to. -/
def statusReferences : Status Cursor → List Reference
  | .running c => c.references
  | _ => []

/-- What several streams refer to. -/
def streamsReferences : List (StreamOf Item Cursor) → List Reference
  | [] => []
  | s :: rest => streamReferences s ++ streamsReferences rest

/-- What several slots refer to. -/
def slotsReferences : List (Step.Slot Item (StreamOf Item Cursor)) → List Reference
  | [] => []
  | s :: rest => slotReferences s ++ slotsReferences rest

/-- What a slot refers to. -/
def slotReferences : Step.Slot Item (StreamOf Item Cursor) → List Reference
  | ⟨s, found⟩ => streamReferences s ++ optionalReferences found

end

/-! ### Buffers -/

namespace World

/-- What a buffer refers to: by the items it keeps, and by its source. -/
def bufferReferences (w : World) (b : BufferId) : List Reference :=
  match w.buffers[b]? with
  | some buffer =>
    itemsReferences buffer.items.toList ++ buffer.source.toList.flatMap streamReferences
  | none => []

/-- What a reference leads to. -/
def followed (w : World) : Reference → List Reference
  | .value _ => []
  | .buffer b => w.bufferReferences b

/-- The references together with all those that they lead to in so many steps. -/
def reachable (w : World) : Nat → List Reference → List Reference
  | 0, refs => refs
  | n + 1, refs => w.reachable n (refs ++ refs.flatMap w.followed).eraseDups

/-- Whether something that has these references can see a value when it arrives. A chain of buffers
without repetition has at most as many links as there are buffers. -/
def canSee (w : World) (d : DeferredId) (refs : List Reference) : Bool :=
  (w.reachable w.buffers.size refs.eraseDups).contains (.value d)

end World

end LazyXPath
