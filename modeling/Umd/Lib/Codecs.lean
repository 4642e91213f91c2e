import Umd.Lib.Utf8
/-!
# Character codecs

The codecs of Python's `codecs` over texts of code points: UTF-8, UTF-16 and UTF-32 of both
byte orders, cp1252 and latin-1, each as the reading of one character and the writing of one.
What a codec decodes it encodes back to the same bytes (`CharCodec.lossless`).
-/

namespace Umd.Lib.Codecs

/-- A Python text: its code points, surrogates among them. -/
abbrev Text := List Nat

/-- How one character is read off the bytes and how it is written. -/
structure CharCodec where
  first : List UInt8 → Option (Nat × List UInt8)
  write : Nat → Option (List UInt8)
  first_written : ∀ {bs c rest}, first bs = some (c, rest) → ∃ b, write c = some b ∧ bs = b ++ rest

/-- The text of the bytes, with as much fuel as there are bytes. -/
def CharCodec.decodeWith (k : CharCodec) : Nat → List UInt8 → Option Text
  | _, [] => some []
  | 0, _ :: _ => none
  | n + 1, b :: bs =>
    match k.first (b :: bs) with
    | some (c, rest) => (k.decodeWith n rest).map (c :: ·)
    | none => none

/-- `bytes.decode(…)`, strictly. -/
def CharCodec.decode (k : CharCodec) (bs : List UInt8) : Option Text := k.decodeWith bs.length bs

/-- `str.encode(…)`, strictly. -/
def CharCodec.encode (k : CharCodec) : Text → Option (List UInt8)
  | [] => some []
  | c :: cs =>
    match k.write c, k.encode cs with
    | some b, some bs => some (b ++ bs)
    | _, _ => none

theorem CharCodec.lossless_with (k : CharCodec) {n : Nat} {bs : List UInt8} {cs : Text}
    (h : k.decodeWith n bs = some cs) : k.encode cs = some bs := by
  induction n generalizing bs cs with
  | zero =>
    cases bs with
    | nil => cases h; rfl
    | cons b bs => cases h
  | succ n ih =>
    cases bs with
    | nil => cases h; rfl
    | cons b bs =>
      rw [CharCodec.decodeWith] at h
      cases hfirst : k.first (b :: bs) with
      | none => rw [hfirst] at h; cases h
      | some read =>
        obtain ⟨c, rest⟩ := read
        rw [hfirst] at h
        obtain ⟨ds, hds, rfl⟩ := Option.map_eq_some_iff.1 h
        obtain ⟨w, hw, hbs⟩ := k.first_written hfirst
        rw [CharCodec.encode, hw, ih hds, hbs]

/-- What a codec decodes it encodes back. -/
theorem CharCodec.lossless (k : CharCodec) {bs : List UInt8} {cs : Text} (h : k.decode bs = some cs) :
    k.encode cs = some bs :=
  k.lossless_with h

/-! ## Single bytes -/

/-- A codec that reads one byte for a character. -/
def single (char : UInt8 → Option Nat) (byte : Nat → Option UInt8)
    (hback : ∀ b c, char b = some c → byte c = some b) : CharCodec where
  first
    | [] => none
    | b :: rest => (char b).map (·, rest)
  write c := (byte c).map ([·])
  first_written := by
    intro bs c rest h
    cases bs with
    | nil => cases h
    | cons b bs =>
      obtain ⟨d, hd, heq⟩ := Option.map_eq_some_iff.1 h
      cases heq
      exact ⟨[b], by rw [hback b c hd]; rfl, rfl⟩

theorem single_total {char : UInt8 → Option Nat} {byte : Nat → Option UInt8} {hback}
    (htotal : ∀ b, ∃ c, char b = some c) (bs : List UInt8) : ∃ cs, (single char byte hback).decode bs = some cs := by
  induction bs with
  | nil => exact ⟨[], rfl⟩
  | cons b bs ih =>
    obtain ⟨c, hc⟩ := htotal b
    obtain ⟨cs, hcs⟩ := ih
    refine ⟨c :: cs, ?_⟩
    rw [CharCodec.decode, List.length_cons, CharCodec.decodeWith]
    simp only [single, hc, Option.map_some]
    exact congrArg _ hcs

/-- ISO 8859-1: every byte is the code point of its number. -/
def latin1 : CharCodec :=
  single (fun b => some b.toNat) (fun c => if c < 256 then some (UInt8.ofNat c) else none) (by
    rintro b c h
    cases h
    rw [if_pos b.toNat_lt, UInt8.ofNat_toNat])

/-- The bytes from 0x80 to 0x9F that cp1252 gives a character. -/
def cp1252High : List (Nat × Nat) :=
  [(0x80, 0x20ac), (0x82, 0x201a), (0x83, 0x0192), (0x84, 0x201e), (0x85, 0x2026), (0x86, 0x2020), (0x87, 0x2021),
    (0x88, 0x02c6), (0x89, 0x2030), (0x8a, 0x0160), (0x8b, 0x2039), (0x8c, 0x0152), (0x8e, 0x017d), (0x91, 0x2018),
    (0x92, 0x2019), (0x93, 0x201c), (0x94, 0x201d), (0x95, 0x2022), (0x96, 0x2013), (0x97, 0x2014), (0x98, 0x02dc),
    (0x99, 0x2122), (0x9a, 0x0161), (0x9b, 0x203a), (0x9c, 0x0153), (0x9e, 0x017e), (0x9f, 0x0178)]

/-- The character of a byte in cp1252. -/
def cp1252Char (b : Nat) : Option Nat :=
  if 0x80 ≤ b ∧ b ≤ 0x9f then (cp1252High.find? (·.1 == b)).map (·.2) else some b

/-- The byte of a character in cp1252. -/
def cp1252Byte (c : Nat) : Option Nat :=
  if c < 0x80 ∨ (0xa0 ≤ c ∧ c ≤ 0xff) then some c else (cp1252High.find? (·.2 == c)).map (·.1)

theorem cp1252_back : ∀ b < 256, ∀ c ∈ cp1252Char b, cp1252Byte c = some b := by decide +kernel

/-- Windows code page 1252; five of its bytes have no character. -/
def cp1252 : CharCodec :=
  single (fun b => cp1252Char b.toNat) (fun c => (cp1252Byte c).map UInt8.ofNat) (by
    intro b c h
    rw [cp1252_back b.toNat b.toNat_lt c h]
    exact congrArg some (UInt8.ofNat_toNat))

/-! ## UTF-8 -/

/-- The character of a code point that is no surrogate. -/
def charOf (c : Nat) : Option Char := if c.isValidChar then some (Char.ofNat c) else none

theorem charOf_toNat (c : Char) : charOf c.toNat = some c := by
  have hvalid : c.toNat.isValidChar := c.valid
  rw [charOf, if_pos hvalid, Char.ofNat_toNat]

def utf8 : CharCodec where
  first bs := (Utf8.firstChar bs).map fun c => (c.toNat, bs.drop c.utf8Size)
  write c := (charOf c).map String.utf8EncodeChar
  first_written := by
    intro bs c rest h
    obtain ⟨d, hd, heq⟩ := Option.map_eq_some_iff.1 h
    cases heq
    obtain ⟨more, rfl⟩ := Utf8.firstChar_some hd
    refine ⟨String.utf8EncodeChar d, by rw [charOf_toNat]; rfl, ?_⟩
    rw [← String.length_utf8EncodeChar, List.drop_left]

/-! ## UTF-16 and UTF-32 -/

inductive ByteOrder
  | little
  | big

/-- The number of two bytes. -/
def ByteOrder.word (o : ByteOrder) (a b : UInt8) : Nat :=
  match o with
  | .little => b.toNat * 256 + a.toNat
  | .big => a.toNat * 256 + b.toNat

/-- The two bytes of a number below 2¹⁶. -/
def ByteOrder.bytes (o : ByteOrder) (w : Nat) : List UInt8 :=
  match o with
  | .little => [UInt8.ofNat (w % 256), UInt8.ofNat (w / 256)]
  | .big => [UInt8.ofNat (w / 256), UInt8.ofNat (w % 256)]

/-- The digits of a number of two digits. -/
theorem two_digits {base low : Nat} (high : Nat) (h : low < base) :
    (high * base + low) % base = low ∧ (high * base + low) / base = high := by
  have hpos : 0 < base := Nat.zero_lt_of_lt h
  refine ⟨by rw [Nat.mul_comm, Nat.mul_add_mod, Nat.mod_eq_of_lt h], ?_⟩
  rw [Nat.mul_comm, Nat.mul_add_div hpos, Nat.div_eq_of_lt h, Nat.add_zero]

theorem ByteOrder.bytes_word (o : ByteOrder) (a b : UInt8) : o.bytes (o.word a b) = [a, b] := by
  cases o with
  | little =>
    obtain ⟨hmod, hdiv⟩ := two_digits b.toNat a.toNat_lt
    simp only [word, bytes]
    rw [hmod, hdiv, UInt8.ofNat_toNat, UInt8.ofNat_toNat]
  | big =>
    obtain ⟨hmod, hdiv⟩ := two_digits a.toNat b.toNat_lt
    simp only [word, bytes]
    rw [hmod, hdiv, UInt8.ofNat_toNat, UInt8.ofNat_toNat]

theorem ByteOrder.word_lt (o : ByteOrder) (a b : UInt8) : o.word a b < 0x10000 := by
  have ha : a.toNat < 256 := a.toNat_lt
  have hb : b.toNat < 256 := b.toNat_lt
  cases o with
  | little => simp only [word]; omega
  | big => simp only [word]; omega

def IsHigh (w : Nat) : Prop := 0xd800 ≤ w ∧ w < 0xdc00
def IsLow (w : Nat) : Prop := 0xdc00 ≤ w ∧ w < 0xe000

instance (w : Nat) : Decidable (IsHigh w) := inferInstanceAs (Decidable (_ ∧ _))
instance (w : Nat) : Decidable (IsLow w) := inferInstanceAs (Decidable (_ ∧ _))

/-- The character of a high surrogate and the low one that has to follow it. -/
def utf16Pair (o : ByteOrder) (high : Nat) : List UInt8 → Option (Nat × List UInt8)
  | a :: b :: rest =>
    if IsLow (o.word a b) then some (0x10000 + (high - 0xd800) * 0x400 + (o.word a b - 0xdc00), rest) else none
  | _ => none

/-- The first character of UTF-16: a word, or a pair of surrogates. -/
def utf16First (o : ByteOrder) : List UInt8 → Option (Nat × List UInt8)
  | a :: b :: rest =>
    if IsHigh (o.word a b) then utf16Pair o (o.word a b) rest
    else if IsLow (o.word a b) then none
    else some (o.word a b, rest)
  | _ => none

def utf16Write (o : ByteOrder) (c : Nat) : Option (List UInt8) :=
  if IsHigh c ∨ IsLow c then none
  else if c < 0x10000 then some (o.bytes c)
  else if c < 0x110000 then
    some (o.bytes (0xd800 + (c - 0x10000) / 0x400) ++ o.bytes (0xdc00 + (c - 0x10000) % 0x400))
  else none

/-- A pair of surrogates is written as it was read. -/
theorem utf16Write_pair (o : ByteOrder) {a b a' b' : UInt8} (hhigh : IsHigh (o.word a b)) (hlow : IsLow (o.word a' b')) :
    utf16Write o (0x10000 + (o.word a b - 0xd800) * 0x400 + (o.word a' b' - 0xdc00)) = some ([a, b] ++ [a', b']) := by
  obtain ⟨hh₁, hh₂⟩ := hhigh
  obtain ⟨hl₁, hl₂⟩ := hlow
  rw [utf16Write, if_neg (by unfold IsHigh IsLow; omega), if_neg (by omega), if_pos (by omega)]
  have hhi : 0xd800 + (0x10000 + (o.word a b - 0xd800) * 0x400 + (o.word a' b' - 0xdc00) - 0x10000) / 0x400 = o.word a b := by
    omega
  have hlo : 0xdc00 + (0x10000 + (o.word a b - 0xd800) * 0x400 + (o.word a' b' - 0xdc00) - 0x10000) % 0x400 = o.word a' b' := by
    omega
  rw [hhi, hlo, o.bytes_word, o.bytes_word]

def utf16 (o : ByteOrder) : CharCodec where
  first := utf16First o
  write := utf16Write o
  first_written := by
    intro bs c rest h
    match bs, h with
    | a :: b :: more, h =>
      rw [utf16First] at h
      split at h
      · next hhigh =>
        match more, h with
        | a' :: b' :: more, h =>
          rw [utf16Pair] at h
          split at h
          · next hlow =>
            obtain ⟨rfl, rfl⟩ := Prod.mk.inj (Option.some.inj h)
            exact ⟨_, utf16Write_pair o hhigh hlow, rfl⟩
          · cases h
      · next hhigh =>
        split at h
        · cases h
        · next hlow =>
          cases h
          refine ⟨[a, b], ?_, rfl⟩
          rw [utf16Write, if_neg (not_or.2 ⟨hhigh, hlow⟩), if_pos (o.word_lt a b), o.bytes_word]

/-- The number of four bytes. -/
def ByteOrder.quad (o : ByteOrder) (a b c d : UInt8) : Nat :=
  match o with
  | .little => o.word c d * 0x10000 + o.word a b
  | .big => o.word a b * 0x10000 + o.word c d

def ByteOrder.quadBytes (o : ByteOrder) (n : Nat) : List UInt8 :=
  match o with
  | .little => o.bytes (n % 0x10000) ++ o.bytes (n / 0x10000)
  | .big => o.bytes (n / 0x10000) ++ o.bytes (n % 0x10000)

theorem ByteOrder.quadBytes_quad (o : ByteOrder) (a b c d : UInt8) : o.quadBytes (o.quad a b c d) = [a, b, c, d] := by
  cases o with
  | little =>
    obtain ⟨hmod, hdiv⟩ := two_digits (word .little c d) (word_lt .little a b)
    simp only [quad, quadBytes]
    rw [hmod, hdiv, bytes_word, bytes_word]
    rfl
  | big =>
    obtain ⟨hmod, hdiv⟩ := two_digits (word .big a b) (word_lt .big c d)
    simp only [quad, quadBytes]
    rw [hmod, hdiv, bytes_word, bytes_word]
    rfl

/-- The numbers that are characters: no surrogates and nothing from 0x110000 on. -/
def IsScalar (c : Nat) : Prop := ¬ (IsHigh c ∨ IsLow c) ∧ c < 0x110000

instance (c : Nat) : Decidable (IsScalar c) := inferInstanceAs (Decidable (_ ∧ _))

def utf32 (o : ByteOrder) : CharCodec where
  first
    | a :: b :: c :: d :: rest => if IsScalar (o.quad a b c d) then some (o.quad a b c d, rest) else none
    | _ => none
  write c := if IsScalar c then some (o.quadBytes c) else none
  first_written := by
    intro bs n rest h
    match bs, h with
    | a :: b :: c :: d :: more, h =>
      dsimp only at h
      split at h
      · next hscalar =>
        cases h
        exact ⟨[a, b, c, d], by rw [if_pos hscalar, o.quadBytes_quad], rfl⟩
      · cases h

end Umd.Lib.Codecs
