/-!
# Binary data as text

Bytes are written in two ways: **hexadecimal**, two digits a byte, and **base 64**, four characters
for three bytes with `=` as padding. Decoding is strict. Hexadecimal text needs an even number of
digits, of either case; base 64 text needs its padding, and bits that no byte takes up must be zero,
so that each list of bytes has exactly one base 64 text.
-/

namespace LazyXPath.Text

/-! ### Hexadecimal -/

/-- The value of a hexadecimal digit. -/
def hexValue? (c : Char) : Option Nat :=
  if '0' ≤ c ∧ c ≤ '9' then some (c.toNat - '0'.toNat)
  else if 'A' ≤ c ∧ c ≤ 'F' then some (c.toNat - 'A'.toNat + 10)
  else if 'a' ≤ c ∧ c ≤ 'f' then some (c.toNat - 'a'.toNat + 10)
  else none

/-- The upper-case hexadecimal digit of a value below 16. -/
def hexDigit (n : Nat) : Char := if n < 10 then Char.ofNat (48 + n) else Char.ofNat (55 + n)

/-- The bytes that a hexadecimal text stands for. -/
def decodeHex : List Char → Option (List UInt8)
  | [] => some []
  | [_] => none
  | c :: d :: rest => do
    let hi ← hexValue? c
    let lo ← hexValue? d
    let bytes ← decodeHex rest
    return UInt8.ofNat (16 * hi + lo) :: bytes

/-- The upper-case hexadecimal text of bytes. -/
def encodeHex (bytes : List UInt8) : List Char :=
  bytes.flatMap fun b => [hexDigit (b.toNat / 16), hexDigit (b.toNat % 16)]

/-! ### Base 64 -/

/-- The character of a value below 64. -/
def sextetChar (n : Nat) : Char :=
  if n < 26 then Char.ofNat (65 + n)
  else if n < 52 then Char.ofNat (71 + n)
  else if n < 62 then Char.ofNat (n - 4)
  else if n = 62 then '+' else '/'

/-- The value of a base 64 character. -/
def sextet? (c : Char) : Option Nat :=
  if 'A' ≤ c ∧ c ≤ 'Z' then some (c.toNat - 65)
  else if 'a' ≤ c ∧ c ≤ 'z' then some (c.toNat - 71)
  else if '0' ≤ c ∧ c ≤ '9' then some (c.toNat + 4)
  else if c = '+' then some 62
  else if c = '/' then some 63
  else none

/-- The base 64 text of bytes. -/
def encodeBase64 : List UInt8 → List Char
  | [] => []
  | [a] => [sextetChar (a.toNat / 4), sextetChar (a.toNat % 4 * 16), '=', '=']
  | [a, b] =>
    [sextetChar (a.toNat / 4), sextetChar (a.toNat % 4 * 16 + b.toNat / 16),
      sextetChar (b.toNat % 16 * 4), '=']
  | a :: b :: c :: rest =>
    sextetChar (a.toNat / 4) :: sextetChar (a.toNat % 4 * 16 + b.toNat / 16) ::
      sextetChar (b.toNat % 16 * 4 + c.toNat / 64) :: sextetChar (c.toNat % 64) ::
      encodeBase64 rest

/-- The bytes that a base 64 text stands for. -/
def decodeBase64 : List Char → Option (List UInt8)
  | [] => some []
  | [p, q, '=', '='] => do
    let w ← sextet? p
    let x ← sextet? q
    if x % 16 = 0 then return [UInt8.ofNat (w * 4 + x / 16)] else none
  | [p, q, r, '='] => do
    let w ← sextet? p
    let x ← sextet? q
    let y ← sextet? r
    if y % 4 = 0 then
      return [UInt8.ofNat (w * 4 + x / 16), UInt8.ofNat (x % 16 * 16 + y / 4)]
    else none
  | p :: q :: r :: s :: rest => do
    let w ← sextet? p
    let x ← sextet? q
    let y ← sextet? r
    let z ← sextet? s
    let bytes ← decodeBase64 rest
    return UInt8.ofNat (w * 4 + x / 16) :: UInt8.ofNat (x % 16 * 16 + y / 4) ::
      UInt8.ofNat (y % 4 * 64 + z) :: bytes
  | _ => none

end LazyXPath.Text
