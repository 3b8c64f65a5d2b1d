/-!
# Expanded names

Functions, variables and error codes are identified by an **expanded name**: a local part and,
possibly, a namespace. Having no namespace and being in the namespace with the empty URI are
different things, which is why the namespace is optional.

Two spellings are written: `Name.display`, where the function namespace has the short form `fn:`,
and `Name.code`, where it is the error namespace that is abbreviated.
-/

namespace LazyXPath

/-- The namespaces that the language itself reserves. -/
inductive Reserved where
  | schema
  | functions
  | errors
  | xml
deriving DecidableEq

/-- The URI of a reserved namespace. -/
def Reserved.uri : Reserved → String
  | schema => "http://www.w3.org/2001/XMLSchema"
  | functions => "http://www.w3.org/2005/xpath-functions"
  | errors => "http://www.w3.org/2005/xqt-errors"
  | xml => "http://www.w3.org/XML/1998/namespace"

/-- An expanded name. -/
structure Name where
  /-- The namespace URI, absent for a name in no namespace. -/
  space : Option String
  /-- The local part. -/
  localPart : String
deriving DecidableEq, Inhabited

namespace Name

/-- The name `s` in no namespace. -/
def plain (s : String) : Name := ⟨none, s⟩

/-- The name `s` in a reserved namespace. -/
def inSpace (r : Reserved) (s : String) : Name := ⟨some r.uri, s⟩

/-- The spelling with the URI in braces. -/
def braced (uri localPart : String) : String :=
  "Q\x7b" ++ uri ++ "\x7d" ++ localPart

/-- The spelling in which a name of the namespace of `r` gets the short form `short:`, a name of
another namespace its URI in braces, and a name without one its local part alone. -/
def spell (r : Reserved) (short : String) (n : Name) : String :=
  match n.space with
  | none => n.localPart
  | some uri => if uri = r.uri then short ++ ":" ++ n.localPart else braced uri n.localPart

/-- The spelling of the name of a function or a variable. -/
def display (n : Name) : String := n.spell .functions "fn"

/-- The spelling of an error code. -/
def code (n : Name) : String := n.spell .errors "err"

/-- The name read with a default namespace: only a name without a namespace is affected. -/
def resolveIn (default : Option String) (n : Name) : Name :=
  match n.space, default with
  | none, some uri => ⟨some uri, n.localPart⟩
  | _, _ => n

/-- The listing order: names without a namespace first, then by URI, then by local part. -/
def listedBefore (a b : Name) : Bool :=
  match a.space, b.space with
  | none, none => decide (a.localPart ≤ b.localPart)
  | none, some _ => true
  | some _, none => false
  | some u, some v => if u = v then decide (a.localPart ≤ b.localPart) else decide (u < v)

end Name

end LazyXPath
