import Mathlib
/-!
# Base64

`base64.b64encode` and `b64decode`, which skips what is not of its alphabet and stops
at a full padding. What was encoded is decoded (`decode_encode`).
-/

namespace Umd.Lib.Base64

def alphabet : List Char := "ABCDEFGHIJKLMNOPQRSTUVWXYZabcdefghijklmnopqrstuvwxyz0123456789+/".toList

def charOf (n : Nat) : Char := alphabet.getD n '='

/-- The place of a character in the alphabet. -/
def valueOf (c : Char) : Option Nat := alphabet.findIdx? (· = c)

/-- The characters of three bytes, and the padding of one or two at the end. -/
def encode : List UInt8 → List Char
  | a :: b :: c :: rest =>
    charOf (a.toNat / 4) :: charOf (a.toNat % 4 * 16 + b.toNat / 16) :: charOf (b.toNat % 16 * 4 + c.toNat / 64) ::
      charOf (c.toNat % 64) :: encode rest
  | [a, b] => [charOf (a.toNat / 4), charOf (a.toNat % 4 * 16 + b.toNat / 16), charOf (b.toNat % 16 * 4), '=']
  | [a] => [charOf (a.toNat / 4), charOf (a.toNat % 4 * 16), '=', '=']
  | [] => []

/-- The bytes of a text, from the place in a group of four characters, the padding seen in it, and the bits left over. -/
def decodeFrom (quad pads left : Nat) : List Char → Option (List UInt8)
  | [] => if quad = 0 then some [] else none
  | c :: cs =>
    if c = '=' then
      if 2 ≤ quad then
        if 4 ≤ quad + pads + 1 then some [] else decodeFrom quad (pads + 1) left cs
      else decodeFrom quad pads left cs
    else
      match valueOf c with
      | none => decodeFrom quad pads left cs
      | some v =>
        match quad with
        | 0 => decodeFrom 1 0 v cs
        | 1 => (decodeFrom 2 0 (v % 16) cs).map (UInt8.ofNat (left * 4 + v / 16) :: ·)
        | 2 => (decodeFrom 3 0 (v % 4) cs).map (UInt8.ofNat (left * 16 + v / 4) :: ·)
        | _ => (decodeFrom 0 0 0 cs).map (UInt8.ofNat (left * 64 + v) :: ·)

/-- `b64decode`. -/
def decode (cs : List Char) : Option (List UInt8) := decodeFrom 0 0 0 cs

theorem charOf_spec : ∀ n < 64, charOf n ≠ '=' ∧ valueOf (charOf n) = some n := by decide +kernel

section Groups

variable {n : Nat} (h : n < 64) (pads left : Nat) (cs : List Char)

include h

theorem decodeFrom_first : decodeFrom 0 pads left (charOf n :: cs) = decodeFrom 1 0 n cs := by
  obtain ⟨hpad, hvalue⟩ := charOf_spec n h
  rw [decodeFrom, if_neg hpad, hvalue]
  rfl

theorem decodeFrom_second : decodeFrom 1 pads left (charOf n :: cs) =
    (decodeFrom 2 0 (n % 16) cs).map (UInt8.ofNat (left * 4 + n / 16) :: ·) := by
  obtain ⟨hpad, hvalue⟩ := charOf_spec n h
  rw [decodeFrom, if_neg hpad, hvalue]
  rfl

theorem decodeFrom_third : decodeFrom 2 pads left (charOf n :: cs) =
    (decodeFrom 3 0 (n % 4) cs).map (UInt8.ofNat (left * 16 + n / 4) :: ·) := by
  obtain ⟨hpad, hvalue⟩ := charOf_spec n h
  rw [decodeFrom, if_neg hpad, hvalue]
  rfl

theorem decodeFrom_fourth : decodeFrom 3 pads left (charOf n :: cs) =
    (decodeFrom 0 0 0 cs).map (UInt8.ofNat (left * 64 + n) :: ·) := by
  obtain ⟨hpad, hvalue⟩ := charOf_spec n h
  rw [decodeFrom, if_neg hpad, hvalue]
  rfl

end Groups

theorem ofNat_eq {n : Nat} {a : UInt8} (h : n = a.toNat) : UInt8.ofNat n = a := by
  rw [h, UInt8.ofNat_toNat]

theorem decode_encode (bytes : List UInt8) : decode (encode bytes) = some bytes := by
  unfold decode
  induction bytes using encode.induct with
  | case1 a b c rest ih =>
    have ha := a.toNat_lt
    have hb := b.toNat_lt
    have hc := c.toNat_lt
    rw [encode, decodeFrom_first (by omega), decodeFrom_second (by omega), decodeFrom_third (by omega),
      decodeFrom_fourth (by omega), ih, ofNat_eq (a := a) (by omega), ofNat_eq (a := b) (by omega), ofNat_eq (a := c) (by omega)]
    rfl
  | case2 a b =>
    have ha := a.toNat_lt
    have hb := b.toNat_lt
    rw [encode, decodeFrom_first (by omega), decodeFrom_second (by omega), decodeFrom_third (by omega),
      ofNat_eq (a := a) (by omega), ofNat_eq (a := b) (by omega)]
    rfl
  | case3 a =>
    have ha := a.toNat_lt
    rw [encode, decodeFrom_first (by omega), decodeFrom_second (by omega), ofNat_eq (a := a) (by omega)]
    rfl
  | case4 => rfl

/-- Only no bytes give an empty text. -/
theorem encode_eq_nil {bytes : List UInt8} : encode bytes = [] ↔ bytes = [] := by
  constructor
  · intro h
    have hdecode := decode_encode bytes
    rw [h] at hdecode
    exact (Option.some.inj hdecode).symm
  · rintro rfl
    rfl

end Umd.Lib.Base64
