import LazyXPath.Atomic.Cast
import LazyXPath.Proofs.RoundTrip.Bytes

/-!
# Bytes in two encodings

A hexadecimal text stands for bytes if and only if it has an even number of digits (`isSome_decodeHex_iff`). Bytes
have one text in upper case: writing what was read gives the text back, in upper case (`encodeHex_of_decodeHex`), and
reading what was written gives the bytes back (`decodeHex_encodeHex`).

A binary value that was read from a text holds the text that is written for its bytes, in its own encoding. So a cast
to the other encoding keeps the bytes, and the cast back gives the value that there was (`binary_lossless`).
-/

namespace LazyXPath

namespace Text

/-! ### Hexadecimal -/

/-- The hexadecimal digits of either case. -/
def IsHexDigit (c : Char) : Prop :=
  ('0' ≤ c ∧ c ≤ '9') ∨ ('A' ≤ c ∧ c ≤ 'F') ∨ ('a' ≤ c ∧ c ≤ 'f')

/-- The digits of both cases have a value. -/
private theorem isSome_hexValue?_iff {c : Char} : (hexValue? c).isSome ↔ IsHexDigit c := by
  unfold hexValue? IsHexDigit
  split
  case isTrue h => exact iff_of_true rfl (.inl h)
  case isFalse h =>
    split
    case isTrue h' => exact iff_of_true rfl (.inr (.inl h'))
    case isFalse h' => split <;> simp_all

/-- A digit stands for a value below 16, whose own digit is the digit in upper case. -/
theorem hexDigit_of_hexValue? {c : Char} {n : Nat} (h : hexValue? c = some n) :
    n < 16 ∧ hexDigit n = c.toUpper := by
  have all : ∀ k < 128, ∀ m ∈ hexValue? (Char.ofNat k), m < 16 ∧ hexDigit m = (Char.ofNat k).toUpper := by
    decide
  have hlt := toNat_lt_of_hexValue? (c := c) (by rw [h]; rfl)
  rw [← Char.ofNat_toNat c] at h ⊢
  exact all c.toNat hlt n h

/-- Digits that are written are read back. -/
private theorem hexValue?_hexDigit {n : Nat} (hn : n < 16) : hexValue? (hexDigit n) = some n := by
  have all : ∀ m < 16, hexValue? (hexDigit m) = some m := by decide
  exact all n hn

/-- Two digits for each byte. -/
private theorem encodeHex_cons (b : UInt8) (bytes : List UInt8) : encodeHex (b :: bytes) =
    hexDigit (b.toNat / 16) :: hexDigit (b.toNat % 16) :: encodeHex bytes := rfl

/-- Two digits make a byte. -/
private theorem isSome_decodeHex_cons_cons {c d : Char} {rest : List Char} : (decodeHex (c :: d :: rest)).isSome ↔
    IsHexDigit c ∧ IsHexDigit d ∧ (decodeHex rest).isSome := by
  rw [← isSome_hexValue?_iff, ← isSome_hexValue?_iff, decodeHex]
  cases hexValue? c <;> cases hexValue? d <;> cases decodeHex rest <;> simp

/-- Reading what was written gives the bytes back. -/
theorem decodeHex_encodeHex (bytes : List UInt8) : decodeHex (encodeHex bytes) = some bytes := by
  induction bytes with
  | nil => rfl
  | cons b bytes ih =>
    have hb := b.toNat_lt
    have hhi := hexValue?_hexDigit (n := b.toNat / 16) (by omega)
    have hlo := hexValue?_hexDigit (n := b.toNat % 16) (by omega)
    have hbyte : 16 * (b.toNat / 16) + b.toNat % 16 = b.toNat := Nat.div_add_mod _ _
    rw [encodeHex_cons, decodeHex, hhi, hlo, ih]
    simp only [Option.bind_eq_bind, Option.bind_some, hbyte, UInt8.ofNat_toNat]
    rfl

/-- A text stands for bytes if and only if it has an even number of digits and nothing else. -/
theorem isSome_decodeHex_iff {cs : List Char} :
    (decodeHex cs).isSome ↔ cs.length % 2 = 0 ∧ ∀ c ∈ cs, IsHexDigit c := by
  induction cs using decodeHex.induct with
  | case1 => simp [decodeHex]
  | case2 c => simp [decodeHex]
  | case3 c d rest ih =>
    have hlength : (c :: d :: rest).length % 2 = 0 ↔ rest.length % 2 = 0 := by
      rw [List.length_cons, List.length_cons]
      omega
    rw [isSome_decodeHex_cons_cons, ih, hlength, List.forall_mem_cons, List.forall_mem_cons]
    tauto

/-- Writing what was read gives the text back, in upper case. -/
theorem encodeHex_of_decodeHex {cs : List Char} {bytes : List UInt8} (h : decodeHex cs = some bytes) :
    encodeHex bytes = cs.map Char.toUpper := by
  induction cs using decodeHex.induct generalizing bytes with
  | case1 =>
    cases h
    rfl
  | case2 c => cases h
  | case3 c d rest ih =>
    simp only [decodeHex, Option.bind_eq_bind, Option.bind_eq_some_iff] at h
    obtain ⟨hi, hc, lo, hd, tail, hrest, h⟩ := h
    cases h
    obtain ⟨hhi, hcupper⟩ := hexDigit_of_hexValue? hc
    obtain ⟨hlo, hdupper⟩ := hexDigit_of_hexValue? hd
    have hbyte : (UInt8.ofNat (16 * hi + lo)).toNat = 16 * hi + lo := by
      rw [UInt8.toNat_ofNat']
      omega
    have hhigh : (16 * hi + lo) / 16 = hi := by omega
    have hlow : (16 * hi + lo) % 16 = lo := by omega
    rw [encodeHex_cons, hbyte, hhigh, hlow, hcupper, hdupper, ih hrest]
    rfl

end Text

/-! ### Casts between the encodings -/

namespace Atomic

open Text

/-- The bytes that a binary value stands for. -/
def octets? : Atomic → Option (List UInt8)
  | hexBinary s => decodeHex s.toList
  | base64Binary s => decodeBase64 s.toList
  | _ => none

/-- The value that holds the hexadecimal text of bytes. -/
def hexOf (bytes : List UInt8) : Atomic := .hexBinary (String.ofList (encodeHex bytes))

/-- The value that holds the base 64 text of bytes. -/
def base64Of (bytes : List UInt8) : Atomic := .base64Binary (String.ofList (encodeBase64 bytes))

section

variable (bytes : List UInt8)

@[simp] theorem octets?_hexOf : (hexOf bytes).octets? = some bytes := by
  rw [hexOf, octets?, String.toList_ofList, decodeHex_encodeHex]

@[simp] theorem octets?_base64Of : (base64Of bytes).octets? = some bytes := by
  rw [base64Of, octets?, String.toList_ofList, decodeBase64_encodeBase64]

private theorem cast_hexOf : (hexOf bytes).cast .base64Binary = .ok (base64Of bytes) := by
  have hmeaning : (hexOf bytes).cast .base64Binary = (hexOf bytes).castByMeaning .base64Binary := rfl
  rw [hmeaning, hexOf, castByMeaning, String.toList_ofList, decodeHex_encodeHex]
  rfl

private theorem cast_base64Of : (base64Of bytes).cast .hexBinary = .ok (hexOf bytes) := by
  have hmeaning : (base64Of bytes).cast .hexBinary = (base64Of bytes).castByMeaning .hexBinary := rfl
  rw [hmeaning, base64Of, castByMeaning, String.toList_ofList, decodeBase64_encodeBase64]
  rfl

end

/-- A value of a type with a reader of its own was read from the text without its superfluous white space. -/
theorem ofCollapsed?_of_ofLexical {T : ItemType} {text : String} {v : Atomic}
    (htext : TextType.ofItemType? T = none) (hinteger : IntegerType.ofItemType? T = none) (hname : T ≠ .qname)
    (h : ofLexical text T = .ok v) : ofCollapsed? (collapse text.toList) T = some v := by
  simp only [ofLexical, htext, hinteger, if_neg hname] at h
  split at h
  case h_1 hv =>
    cases h
    exact hv
  case h_2 => cases h

/-- What is read as hexadecimal is the value of some bytes: their text is the one that was read, in upper case. -/
theorem exists_hexOf {text : String} {v : Atomic} (h : ofLexical text .hexBinary = .ok v) :
    ∃ bytes, v = hexOf bytes := by
  have hread := ofCollapsed?_of_ofLexical (by decide) (by decide) (by decide) h
  rw [ofCollapsed?] at hread
  split at hread
  case isTrue hsome =>
    obtain ⟨bytes, hbytes⟩ := Option.isSome_iff_exists.mp hsome
    cases hread
    exact ⟨bytes, by rw [hexOf, encodeHex_of_decodeHex hbytes]⟩
  case isFalse => cases hread

/-- A value in base 64 holds the text of its bytes. -/
private theorem exists_base64Of {text : String} {v : Atomic} (h : ofLexical text .base64Binary = .ok v) :
    ∃ bytes, v = base64Of bytes := by
  have hread := ofCollapsed?_of_ofLexical (by decide) (by decide) (by decide) h
  obtain ⟨bytes, -, rfl⟩ := Option.map_eq_some_iff.mp hread
  exact ⟨bytes, rfl⟩

/-- **Binary data is kept by its encodings.** Hexadecimal texts are those with an even number of digits; reading takes
back what was written, and writing gives back what was read, in upper case. A value that was read in one of the two
binary types is cast to the other one, as a value of the same bytes, and from there back to itself. -/
theorem binary_lossless :
    (∀ bytes, decodeHex (encodeHex bytes) = some bytes) ∧
    (∀ cs, (decodeHex cs).isSome ↔ cs.length % 2 = 0 ∧ ∀ c ∈ cs, IsHexDigit c) ∧
    (∀ cs bytes, decodeHex cs = some bytes → encodeHex bytes = cs.map Char.toUpper) ∧
    ∀ S T, S = ItemType.hexBinary ∧ T = ItemType.base64Binary ∨ S = ItemType.base64Binary ∧ T = ItemType.hexBinary →
      ∀ text v, ofLexical text S = .ok v → ∃ w bytes, v.cast T = .ok w ∧ w.itemType = T ∧ w.cast S = .ok v ∧
        v.octets? = some bytes ∧ w.octets? = some bytes := by
  refine ⟨decodeHex_encodeHex, fun cs => isSome_decodeHex_iff, fun cs bytes => encodeHex_of_decodeHex, ?_⟩
  rintro S T (⟨rfl, rfl⟩ | ⟨rfl, rfl⟩) text v h
  · obtain ⟨bytes, rfl⟩ := exists_hexOf h
    exact ⟨base64Of bytes, bytes, cast_hexOf bytes, rfl, cast_base64Of bytes, octets?_hexOf bytes,
      octets?_base64Of bytes⟩
  · obtain ⟨bytes, rfl⟩ := exists_base64Of h
    exact ⟨hexOf bytes, bytes, cast_base64Of bytes, rfl, cast_hexOf bytes, octets?_base64Of bytes,
      octets?_hexOf bytes⟩

/-- Five bytes in mixed case with white space around them, which base 64 writes with padding. -/
theorem binary_lossless_padded :
    ofLexical " 48656C6c6f\n" .hexBinary = .ok (.hexBinary "48656C6C6F") ∧
      ∃ w bytes, (hexBinary "48656C6C6F").cast .base64Binary = .ok w ∧ w.itemType = .base64Binary ∧
        w.cast .hexBinary = .ok (.hexBinary "48656C6C6F") ∧ (hexBinary "48656C6C6F").octets? = some bytes ∧
        w.octets? = some bytes := by
  have h : ofLexical " 48656C6c6f\n" .hexBinary = .ok (.hexBinary "48656C6C6F") := by rfl
  exact ⟨h, binary_lossless.2.2.2 _ _ (.inl ⟨rfl, rfl⟩) _ _ h⟩

end Atomic

end LazyXPath
