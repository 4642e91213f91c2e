import Mathlib
/-!
# UTF-8 with replacement

`bytes.decode("utf-8", errors="replace")`: what is no character is read as U+FFFD, once for
each of its longest starts of a character. Bytes are what their text is written as, or there
is a first place in them where no character begins (`decoded`).
-/

namespace Umd.Lib.Utf8

/-- U+FFFD. -/
def replacement : Char := '\ufffd'

/-- `str.encode("utf-8")` -/
def encode (cs : List Char) : List UInt8 := cs.flatMap String.utf8EncodeChar

/-- The character that begins the bytes, if one does. -/
def firstChar (bs : List UInt8) : Option Char := bs.toByteArray.utf8DecodeChar? 0

/-- The bounds of the bytes that may follow the first byte of a character. -/
def follows (b : UInt8) : List (UInt8 × UInt8) :=
  if 0xc2 ≤ b ∧ b ≤ 0xdf then [(0x80, 0xbf)]
  else if b = 0xe0 then [(0xa0, 0xbf), (0x80, 0xbf)]
  else if b = 0xed then [(0x80, 0x9f), (0x80, 0xbf)]
  else if 0xe1 ≤ b ∧ b ≤ 0xef then [(0x80, 0xbf), (0x80, 0xbf)]
  else if b = 0xf0 then [(0x90, 0xbf), (0x80, 0xbf), (0x80, 0xbf)]
  else if 0xf1 ≤ b ∧ b ≤ 0xf3 then [(0x80, 0xbf), (0x80, 0xbf), (0x80, 0xbf)]
  else if b = 0xf4 then [(0x80, 0x8f), (0x80, 0xbf), (0x80, 0xbf)]
  else []

/-- How many bytes stay within the bounds. -/
def within : List (UInt8 × UInt8) → List UInt8 → Nat
  | (low, high) :: bounds, b :: bs => if low ≤ b ∧ b ≤ high then within bounds bs + 1 else 0
  | _, _ => 0

/-- The bytes after the longest start of a character. -/
def skipBad : List UInt8 → List UInt8
  | [] => []
  | b :: bs => bs.drop (within (follows b) bs)

/-- The text of the bytes, with as much fuel as there are bytes. -/
def decodeWith : Nat → List UInt8 → List Char
  | 0, _ => []
  | _ + 1, [] => []
  | n + 1, b :: bs =>
    match firstChar (b :: bs) with
    | some c => c :: decodeWith n ((b :: bs).drop c.utf8Size)
    | none => replacement :: decodeWith n (skipBad (b :: bs))

/-- `bytes.decode("utf-8", errors="replace")` -/
def decodeReplace (bs : List UInt8) : List Char := decodeWith bs.length bs

/-! ## Characters -/

theorem firstChar_encoded (c : Char) (bs : List UInt8) : firstChar (String.utf8EncodeChar c ++ bs) = some c := by
  rw [firstChar, List.toByteArray_append]
  exact ByteArray.utf8DecodeChar?_utf8EncodeChar_append

theorem firstChar_some {bs : List UInt8} {c : Char} (h : firstChar bs = some c) :
    ∃ rest, bs = String.utf8EncodeChar c ++ rest := by
  obtain ⟨rest, hrest⟩ := ByteArray.exists_of_utf8DecodeChar?_eq_some h
  refine ⟨rest.data.toList, ?_⟩
  have hdata := congrArg (fun b : ByteArray => b.data.toList) hrest
  simpa using hdata

theorem encode_cons (c : Char) (cs : List Char) : encode (c :: cs) = String.utf8EncodeChar c ++ encode cs := List.flatMap_cons

theorem encode_append (cs ds : List Char) : encode (cs ++ ds) = encode cs ++ encode ds := List.flatMap_append

theorem encode_length_le (cs : List Char) : cs.length ≤ (encode cs).length := by
  induction cs with
  | nil => exact le_rfl
  | cons c cs ih =>
    rw [encode_cons, List.length_append, String.length_utf8EncodeChar, List.length_cons]
    have := c.utf8Size_pos
    omega

/-! ## Texts -/

theorem skipBad_length (b : UInt8) (bs : List UInt8) : (skipBad (b :: bs)).length ≤ bs.length := by
  rw [skipBad, List.length_drop]
  exact Nat.sub_le ..

/-- Fuel that is enough does not matter. -/
theorem decodeWith_fuel {n m : Nat} {bs : List UInt8} (hn : bs.length ≤ n) (hm : bs.length ≤ m) :
    decodeWith n bs = decodeWith m bs := by
  induction n generalizing m bs with
  | zero =>
    rw [List.length_eq_zero_iff.1 (Nat.le_zero.1 hn)]
    cases m <;> rfl
  | succ n ih =>
    cases bs with
    | nil => cases m <;> rfl
    | cons b bs =>
      cases m with
      | zero => exact absurd hm (Nat.not_succ_le_zero _)
      | succ m =>
        rw [List.length_cons] at hn hm
        have hskip := skipBad_length b bs
        rw [decodeWith, decodeWith]
        cases firstChar (b :: bs) with
        | none => exact congrArg _ (ih (by omega) (by omega))
        | some c =>
          have hdrop : ((b :: bs).drop c.utf8Size).length ≤ bs.length := by
            have hpos := c.utf8Size_pos
            rw [List.length_drop, List.length_cons]
            omega
          exact congrArg _ (ih (by omega) (by omega))

theorem decode_char (c : Char) (bs : List UInt8) : decodeReplace (String.utf8EncodeChar c ++ bs) = c :: decodeReplace bs := by
  have hfirst := firstChar_encoded c bs
  have hdrop : (String.utf8EncodeChar c ++ bs).drop c.utf8Size = bs := by
    rw [← String.length_utf8EncodeChar, List.drop_left]
  obtain ⟨b, rest, hb⟩ : ∃ b rest, String.utf8EncodeChar c ++ bs = b :: rest := by
    refine List.exists_cons_of_ne_nil fun hnil => ?_
    have hlen := congrArg List.length hnil
    have hpos := c.utf8Size_pos
    rw [List.length_append, String.length_utf8EncodeChar, List.length_nil] at hlen
    omega
  rw [hb] at hfirst hdrop ⊢
  rw [decodeReplace, List.length_cons, decodeWith, hfirst]
  dsimp only
  have hle : bs.length ≤ rest.length := by
    have hlen := congrArg List.length hdrop
    have hpos := c.utf8Size_pos
    rw [List.length_drop, List.length_cons] at hlen
    omega
  rw [hdrop, decodeWith_fuel hle le_rfl, decodeReplace]

/-- What no character begins is read as U+FFFD and something more. -/
theorem decode_bad {bs : List UInt8} (hne : bs ≠ []) (h : firstChar bs = none) :
    decodeReplace bs = replacement :: decodeReplace (skipBad bs) := by
  obtain ⟨b, bs, rfl⟩ := List.exists_cons_of_ne_nil hne
  rw [decodeReplace, List.length_cons, decodeWith, h]
  dsimp only
  rw [decodeWith_fuel (skipBad_length b bs) le_rfl, decodeReplace]

/-- What was written is read back, whatever follows it. -/
theorem decode_encode (cs : List Char) (bs : List UInt8) : decodeReplace (encode cs ++ bs) = cs ++ decodeReplace bs := by
  induction cs with
  | nil => rfl
  | cons c cs ih => rw [encode_cons, List.append_assoc, decode_char, ih, List.cons_append]

/-- Bytes are a text, or a text and then what no character begins. -/
theorem decoded (bs : List UInt8) : (∃ cs, bs = encode cs) ∨
    ∃ cs bad, bs = encode cs ++ bad ∧ bad ≠ [] ∧ firstChar bad = none := by
  induction h : bs.length using Nat.strong_induction_on generalizing bs with
  | _ n ih =>
    by_cases hne : bs = []
    · exact .inl ⟨[], hne⟩
    · cases hfirst : firstChar bs with
      | none => exact .inr ⟨[], bs, rfl, hne, hfirst⟩
      | some c =>
        obtain ⟨rest, rfl⟩ := firstChar_some hfirst
        have hlt : rest.length < n := by
          have hpos := c.utf8Size_pos
          rw [List.length_append, String.length_utf8EncodeChar] at h
          omega
        rcases ih _ hlt rest rfl with ⟨cs, hcs⟩ | ⟨cs, bad, hcs, hbad⟩
        · exact .inl ⟨c :: cs, by rw [hcs, encode_cons]⟩
        · exact .inr ⟨c :: cs, bad, by rw [hcs, encode_cons, List.append_assoc], hbad⟩

/-- Bytes that go on as U+FFFD are its beginning, if no character begins them. -/
theorem bad_of_replacement {bad rest : List UInt8} (h : firstChar bad = none) (hpre : encode [replacement] <+: bad ++ rest) :
    bad <+: encode [replacement] ∧ bad ≠ encode [replacement] := by
  rcases le_total bad.length (encode [replacement]).length with hle | hle
  · refine ⟨List.prefix_of_prefix_length_le (List.prefix_append bad rest) hpre hle, ?_⟩
    rintro rfl
    have hfirst := firstChar_encoded replacement []
    rw [List.append_nil] at hfirst
    rw [encode_cons, encode, List.flatMap_nil, List.append_nil, hfirst] at h
    cases h
  · obtain ⟨more, hmore⟩ := List.prefix_of_prefix_length_le hpre (List.prefix_append bad rest) hle
    rw [encode_cons, encode, List.flatMap_nil, List.append_nil] at hmore
    rw [← hmore, firstChar_encoded] at h
    cases h

/-! ## Strict decoding -/

/-- The text of the bytes, with as much fuel as there are bytes; nothing where no character begins. -/
def decodeStrictWith : Nat → List UInt8 → Option (List Char)
  | _, [] => some []
  | 0, _ => none
  | n + 1, b :: bs =>
    match firstChar (b :: bs) with
    | some c => (decodeStrictWith n ((b :: bs).drop c.utf8Size)).map (c :: ·)
    | none => none

/-- `bytes.decode("utf-8")` -/
def decodeStrict (bs : List UInt8) : Option (List Char) := decodeStrictWith bs.length bs

theorem decodeStrictWith_encode {n : Nat} (cs : List Char) (hn : cs.length ≤ n) : decodeStrictWith n (encode cs) = some cs := by
  induction cs generalizing n with
  | nil => cases n <;> rfl
  | cons c cs ih =>
    obtain ⟨m, rfl⟩ := Nat.exists_eq_add_of_le' (Nat.le_trans (Nat.succ_pos _) hn)
    rw [encode_cons]
    cases hbytes : String.utf8EncodeChar c ++ encode cs with
    | nil =>
      have hlength := congrArg List.length hbytes
      rw [List.length_append, String.length_utf8EncodeChar, List.length_nil] at hlength
      have := c.utf8Size_pos
      omega
    | cons b bs =>
      have hfirst := firstChar_encoded c (encode cs)
      rw [hbytes] at hfirst
      rw [decodeStrictWith, hfirst]
      dsimp only
      rw [← hbytes, ← String.length_utf8EncodeChar, List.drop_left, ih (Nat.le_of_succ_le_succ hn)]
      rfl

theorem decodeStrict_encode (cs : List Char) : decodeStrict (encode cs) = some cs :=
  decodeStrictWith_encode cs (encode_length_le cs)

end Umd.Lib.Utf8
