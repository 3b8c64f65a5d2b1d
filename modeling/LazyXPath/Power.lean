/-!
# Powers of two and ten

Bounds of machine words are powers of two, and scales of decimals are powers of ten.
-/

namespace LazyXPath

/-- A power of two. -/
abbrev twoTo (n : Nat) : Nat := Nat.pow 2 n

/-- A power of ten. -/
abbrev tenTo (n : Nat) : Nat := Nat.pow 10 n

end LazyXPath
