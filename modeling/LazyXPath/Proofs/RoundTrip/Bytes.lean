import LazyXPath.Text.Bytes
import LazyXPath.Proofs.RoundTrip.Text

/-!
# Binary texts are read back

Base 64 decoding takes back what encoding wrote (`decodeBase64_encodeBase64`), three bytes at a time
and then with padding. A hexadecimal text may be written with letters of either case; in upper case it
stands for the same bytes (`decodeHex_map_toUpper`).
-/

namespace LazyXPath.Text

/-! ### Base 64 -/

/-- What is needed of the character of a value: it is read as the value, and is neither padding nor
white space. -/
theorem sextetChar_lt {n : Nat} (hn : n < 64) :
    sextet? (sextetChar n) = some n ∧ sextetChar n ≠ '=' ∧ isBlank (sextetChar n) = false := by
  have all : ∀ m < 64, sextet? (sextetChar m) = some m ∧ sextetChar m ≠ '=' ∧
      isBlank (sextetChar m) = false := by decide
  exact all n hn

/-- Four characters without padding give three bytes. -/
private theorem decodeBase64_group {p q r s : Char} {rest : List Char} (hs : s ≠ '=') :
    decodeBase64 (p :: q :: r :: s :: rest) = do
      let w ← sextet? p
      let x ← sextet? q
      let y ← sextet? r
      let z ← sextet? s
      let bytes ← decodeBase64 rest
      return UInt8.ofNat (w * 4 + x / 16) :: UInt8.ofNat (x % 16 * 16 + y / 4) ::
        UInt8.ofNat (y % 4 * 64 + z) :: bytes := by
  rw [decodeBase64]
  · rintro - rfl
    exact fun _ => hs rfl
  · exact fun h => absurd h hs

/-- The six high bits and the two low bits of a byte, the latter above four bits of the next one. -/
theorem firstByte (a : UInt8) {k : Nat} (hk : k < 16) :
    UInt8.ofNat (a.toNat / 4 * 4 + (a.toNat % 4 * 16 + k) / 16) = a := by
  have : a.toNat / 4 * 4 + (a.toNat % 4 * 16 + k) / 16 = a.toNat := by omega
  rw [this, UInt8.ofNat_toNat]

/-- The two halves of a byte, below two bits of the one before and above two bits of the next one. -/
theorem secondByte (b : UInt8) (m : Nat) {k : Nat} (hk : k < 4) :
    UInt8.ofNat ((m * 16 + b.toNat / 16) % 16 * 16 + (b.toNat % 16 * 4 + k) / 4) = b := by
  have hb := b.toNat_lt
  have : (m * 16 + b.toNat / 16) % 16 * 16 + (b.toNat % 16 * 4 + k) / 4 = b.toNat := by omega
  rw [this, UInt8.ofNat_toNat]

/-- The two high bits of a byte, below four bits of the one before, and the six low bits. -/
theorem thirdByte (c : UInt8) (m : Nat) :
    UInt8.ofNat ((m * 4 + c.toNat / 64) % 4 * 64 + c.toNat % 64) = c := by
  have hc := c.toNat_lt
  have : (m * 4 + c.toNat / 64) % 4 * 64 + c.toNat % 64 = c.toNat := by omega
  rw [this, UInt8.ofNat_toNat]

/-- Decoding takes back what encoding wrote, three bytes at a time. -/
theorem decodeBase64_encodeBase64 (bytes : List UInt8) :
    decodeBase64 (encodeBase64 bytes) = some bytes := by
  have value : ∀ {n : Nat}, n < 64 → sextet? (sextetChar n) = some n := fun hn => (sextetChar_lt hn).1
  induction bytes using encodeBase64.induct with
  | case1 => rfl
  | case2 a =>
    have ha := a.toNat_lt
    have hp := value (n := a.toNat / 4) (by omega)
    have hq := value (n := a.toNat % 4 * 16) (by omega)
    have hrest : a.toNat % 4 * 16 % 16 = 0 := by omega
    have hbyte := firstByte a (k := 0) (by decide)
    simp only [encodeBase64, decodeBase64, hp, hq, hrest, Option.bind_eq_bind, Option.bind_some, if_true]
    exact congrArg (fun b => some [b]) hbyte
  | case3 a b =>
    have ha := a.toNat_lt
    have hb := b.toNat_lt
    have hp := value (n := a.toNat / 4) (by omega)
    have hq := value (n := a.toNat % 4 * 16 + b.toNat / 16) (by omega)
    obtain ⟨hr, hr', -⟩ := sextetChar_lt (n := b.toNat % 16 * 4) (by omega)
    have hrest : b.toNat % 16 * 4 % 4 = 0 := by omega
    have hfirst := firstByte a (k := b.toNat / 16) (by omega)
    have hsecond := secondByte b (a.toNat % 4) (k := 0) (by decide)
    rw [encodeBase64, decodeBase64]
    · simp only [hp, hq, hr, hrest, Option.bind_eq_bind, Option.bind_some, if_true, hfirst]
      exact congrArg (fun c => some [a, c]) hsecond
    · exact hr'
  | case4 a b c rest ih =>
    have ha := a.toNat_lt
    have hb := b.toNat_lt
    have hc := c.toNat_lt
    have hp := value (n := a.toNat / 4) (by omega)
    have hq := value (n := a.toNat % 4 * 16 + b.toNat / 16) (by omega)
    have hr := value (n := b.toNat % 16 * 4 + c.toNat / 64) (by omega)
    obtain ⟨hs, hs', -⟩ := sextetChar_lt (n := c.toNat % 64) (by omega)
    have hfirst := firstByte a (k := b.toNat / 16) (by omega)
    have hsecond := secondByte b (a.toNat % 4) (k := c.toNat / 64) (by omega)
    have hthird := thirdByte c (b.toNat % 16)
    rw [encodeBase64, decodeBase64_group hs']
    simp only [hp, hq, hr, hs, ih, Option.bind_eq_bind, Option.bind_some, hfirst, hsecond, hthird]
    rfl

theorem solid_encodeBase64 (bytes : List UInt8) : Solid (encodeBase64 bytes) := by
  have solid : ∀ {n : Nat}, n < 64 → isBlank (sextetChar n) = false := fun hn => (sextetChar_lt hn).2.2
  have padding : isBlank '=' = false := by decide
  induction bytes using encodeBase64.induct with
  | case1 => exact .nil
  | case2 a =>
    have ha := a.toNat_lt
    simp only [encodeBase64, Solid.cons_iff, Solid.nil, padding, and_true]
    exact ⟨solid (by omega), solid (by omega)⟩
  | case3 a b =>
    have ha := a.toNat_lt
    have hb := b.toNat_lt
    simp only [encodeBase64, Solid.cons_iff, Solid.nil, padding, and_true]
    exact ⟨solid (by omega), solid (by omega), solid (by omega)⟩
  | case4 a b c rest ih =>
    have ha := a.toNat_lt
    have hb := b.toNat_lt
    have hc := c.toNat_lt
    simp only [encodeBase64, Solid.cons_iff]
    exact ⟨solid (by omega), solid (by omega), solid (by omega), solid (by omega), ih⟩

/-! ### Hexadecimal -/

/-- Digits are among the first characters, which are few enough to go through. -/
theorem toNat_lt_of_hexValue? {c : Char} (h : (hexValue? c).isSome) : c.toNat < 128 := by
  by_contra hge
  have above : ∀ d : Char, d.toNat < 128 → ¬ c ≤ d := by
    intro d hd hle
    exact hge (Nat.lt_of_le_of_lt (UInt32.le_iff_toNat_le.mp (Char.le_def.mp hle)) hd)
  have h9 := above '9' (by decide)
  have hF := above 'F' (by decide)
  have hf := above 'f' (by decide)
  simp [hexValue?, h9, hF, hf] at h

/-- A hexadecimal digit keeps its value in upper case, which it then is in, and is not white space. -/
theorem hexValue?_toUpper {c : Char} (h : (hexValue? c).isSome) :
    hexValue? c.toUpper = hexValue? c ∧ c.toUpper.toUpper = c.toUpper ∧
      isBlank c.toUpper = false := by
  have all : ∀ n < 128, (hexValue? (Char.ofNat n)).isSome →
      hexValue? (Char.ofNat n).toUpper = hexValue? (Char.ofNat n) ∧
      (Char.ofNat n).toUpper.toUpper = (Char.ofNat n).toUpper ∧
      isBlank (Char.ofNat n).toUpper = false := by decide
  have hlt := toNat_lt_of_hexValue? h
  rw [← Char.ofNat_toNat c] at h ⊢
  exact all c.toNat hlt h

/-- Upper case changes neither the bytes nor, a second time, the text. -/
theorem decodeHex_map_toUpper {cs : List Char} (h : (decodeHex cs).isSome) :
    (decodeHex (cs.map Char.toUpper)).isSome ∧
      (cs.map Char.toUpper).map Char.toUpper = cs.map Char.toUpper ∧ Solid (cs.map Char.toUpper) := by
  induction cs using decodeHex.induct with
  | case1 => simp [decodeHex]
  | case2 c => simp [decodeHex] at h
  | case3 c d rest ih =>
    obtain ⟨bytes, hbytes⟩ := Option.isSome_iff_exists.mp h
    simp only [decodeHex, Option.bind_eq_bind, Option.bind_eq_some_iff] at hbytes
    obtain ⟨hi, hc, lo, hd, tail, hrest, -⟩ := hbytes
    obtain ⟨hcval, hcup, hcsolid⟩ := hexValue?_toUpper (c := c) (by rw [hc]; rfl)
    obtain ⟨hdval, hdup, hdsolid⟩ := hexValue?_toUpper (c := d) (by rw [hd]; rfl)
    obtain ⟨hsome, hup, hsolid⟩ := ih (by rw [hrest]; rfl)
    obtain ⟨tail', hrest'⟩ := Option.isSome_iff_exists.mp hsome
    refine ⟨?_, ?_, ?_⟩
    · simp [decodeHex, hcval, hdval, hc, hd, hrest']
    · simp only [List.map_cons, hcup, hdup, hup]
    · simp only [List.map_cons, Solid.cons_iff]
      exact ⟨hcsolid, hdsolid, hsolid⟩

end LazyXPath.Text
