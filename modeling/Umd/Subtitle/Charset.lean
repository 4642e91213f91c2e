import Umd.Lib.Codecs
/-!
# The charset of subtitle files

`subtitle/charset.py`: the charset of raw bytes is told by a byte-order mark, by strict UTF-8
or by cp1252 without control characters, and is latin-1 when none of these is one; the text is
decoded with it. Decoding never fails and loses nothing (`decode_lossless`).
-/

namespace Umd.Subtitle

open Umd.Lib.Codecs

/-- The charsets a probe names. -/
inductive Charset
  | utf32le
  | utf32be
  | utf16le
  | utf16be
  | utf8sig
  | utf8
  | cp1252
  | latin1
  deriving DecidableEq, Repr

/-- The name Python has for the charset. -/
def Charset.name : Charset → String
  | utf32le => "utf-32-le"
  | utf32be => "utf-32-be"
  | utf16le => "utf-16-le"
  | utf16be => "utf-16-be"
  | utf8sig => "utf-8-sig"
  | utf8 => "utf-8"
  | cp1252 => "cp1252"
  | latin1 => "latin-1"

/-- `codecs.BOM_UTF8` -/
def bomUtf8 : List UInt8 := [0xef, 0xbb, 0xbf]

/-- The codec of the characters; `utf-8-sig` has those of UTF-8. -/
def Charset.codec : Charset → CharCodec
  | utf32le => utf32 .little
  | utf32be => utf32 .big
  | utf16le => utf16 .little
  | utf16be => utf16 .big
  | utf8sig | utf8 => Lib.Codecs.utf8
  | cp1252 => Lib.Codecs.cp1252
  | latin1 => Lib.Codecs.latin1

/-- `raw.decode(charset)`: `utf-8-sig` passes over one mark at the start. -/
def Charset.decode (charset : Charset) (raw : List UInt8) : Option Text :=
  match charset with
  | utf8sig => if bomUtf8.isPrefixOf raw then charset.codec.decode (raw.drop 3) else charset.codec.decode raw
  | _ => charset.codec.decode raw

/-- `text.encode(charset)`: `utf-8-sig` begins with a mark. -/
def Charset.encode (charset : Charset) (text : Text) : Option (List UInt8) :=
  match charset with
  | utf8sig => (charset.codec.encode text).map (bomUtf8 ++ ·)
  | _ => charset.codec.encode text

/-- `_BOMS`, the longest marks first. -/
def boms : List (List UInt8 × Charset) :=
  [([0xff, 0xfe, 0x00, 0x00], .utf32le), ([0x00, 0x00, 0xfe, 0xff], .utf32be), ([0xff, 0xfe], .utf16le),
    ([0xfe, 0xff], .utf16be), (bomUtf8, .utf8sig)]

/-- `ProbeResult` -/
structure ProbeResult where
  charset : Charset
  confidence : ℚ
  surrogatePreserved : Bool

/-- The loop over `_BOMS`: a mark on malformed bytes ends the whole search. -/
def sniff (raw : List UInt8) : List (List UInt8 × Charset) → Option Charset
  | [] => none
  | (bom, enc) :: rest =>
    if bom.isPrefixOf raw then (if (enc.decode raw).isSome then some enc else none) else sniff raw rest

/-- `_has_foreign_controls` -/
def hasForeignControls (text : Text) : Bool :=
  text.any fun o => (o < 0x20 && !(o == 0x09 || o == 0x0d || o == 0x0a)) || (0x7f ≤ o && o ≤ 0x9f)

/-- `probe_charset` -/
def probeCharset (raw : List UInt8) : ProbeResult :=
  match sniff raw boms with
  | some enc => ⟨enc, 1, false⟩
  | none =>
    if (Charset.utf8.decode raw).isSome then ⟨.utf8, 1, false⟩
    else
      match Charset.cp1252.decode raw with
      | some text => if hasForeignControls text then ⟨.latin1, 1 / 2, true⟩ else ⟨.cp1252, 7 / 10, false⟩
      | none => ⟨.latin1, 1 / 2, true⟩

/-- The one failure of `decode_subtitle_bytes`, with the charset its text names. -/
structure SubtitleDecodeError where
  charset : String

/-- `decode_subtitle_bytes`; latin-1 has a character for every byte, so `surrogateescape` finds nothing to escape. -/
def decodeSubtitleBytes (raw : List UInt8) : Except SubtitleDecodeError (Text × ProbeResult) :=
  let result := probeCharset raw
  if result.charset = .latin1 ∧ result.surrogatePreserved = true then .ok (raw.map UInt8.toNat, result)
  else
    match result.charset.decode raw with
    | some text => .ok (text, result)
    | none => .error ⟨result.charset.name⟩

/-- A character under latin-1 with `surrogateescape`: 0xDC80 to 0xDCFF are the bytes 0x80 to 0xFF. -/
def recoverByte (c : Nat) : Option UInt8 :=
  if c < 256 then some (UInt8.ofNat c)
  else if 0xdc80 ≤ c ∧ c ≤ 0xdcff then some (UInt8.ofNat (c - 0xdc00))
  else none

/-- `recover_raw_bytes` -/
def recoverRawBytes (text : Text) : Option (List UInt8) := text.mapM recoverByte

/-! ## Losslessness -/

theorem isPrefixOf_bom {raw : List UInt8} (h : bomUtf8.isPrefixOf raw = true) : bomUtf8 ++ raw.drop 3 = raw := by
  obtain ⟨rest, rfl⟩ := List.isPrefixOf_iff_prefix.1 h
  rfl

/-- What a charset decodes it encodes back; `utf-8-sig` does so where there is a mark. -/
theorem Charset.lossless {charset : Charset} {raw : List UInt8} {text : Text} (h : charset.decode raw = some text)
    (hbom : charset = .utf8sig → bomUtf8.isPrefixOf raw = true) : charset.encode text = some raw := by
  cases charset with
  | utf8sig =>
    rw [Charset.decode, if_pos (hbom rfl)] at h
    rw [Charset.encode, CharCodec.lossless _ h, Option.map_some, isPrefixOf_bom (hbom rfl)]
  | utf32le => exact CharCodec.lossless _ h
  | utf32be => exact CharCodec.lossless _ h
  | utf16le => exact CharCodec.lossless _ h
  | utf16be => exact CharCodec.lossless _ h
  | utf8 => exact CharCodec.lossless _ h
  | cp1252 => exact CharCodec.lossless _ h
  | latin1 => exact CharCodec.lossless _ h

/-- A charset that is found decodes the bytes, which begin with its mark. -/
theorem sniff_some {raw : List UInt8} {marks : List (List UInt8 × Charset)} {enc : Charset}
    (h : sniff raw marks = some enc) :
    ∃ bom, (bom, enc) ∈ marks ∧ bom.isPrefixOf raw = true ∧ ∃ text, enc.decode raw = some text := by
  induction marks with
  | nil => cases h
  | cons mark marks ih =>
    obtain ⟨bom, e⟩ := mark
    rw [sniff] at h
    split at h
    · next hpre =>
      split at h
      · next hsome =>
        cases h
        exact ⟨bom, List.mem_cons_self, hpre, Option.isSome_iff_exists.1 hsome⟩
      · cases h
    · obtain ⟨b, hmem, hrest⟩ := ih h
      exact ⟨b, List.mem_cons_of_mem _ hmem, hrest⟩

/-- Only the mark of UTF-8 stands for `utf-8-sig`. -/
theorem mark_of_sig {bom : List UInt8} (h : (bom, Charset.utf8sig) ∈ boms) : bom = bomUtf8 := by
  simpa [boms] using h

theorem recoverByte_toNat (b : UInt8) : recoverByte b.toNat = some b := by
  rw [recoverByte, if_pos b.toNat_lt, UInt8.ofNat_toNat]

theorem recover_bytes (raw : List UInt8) : recoverRawBytes (raw.map UInt8.toNat) = some raw := by
  induction raw with
  | nil => rfl
  | cons b raw ih =>
    rw [recoverRawBytes] at ih ⊢
    rw [List.map_cons, List.mapM_cons, recoverByte_toNat, ih]
    rfl

/-- A charset that is not latin-1 decodes the bytes it was probed from, and begins with its mark if it is `utf-8-sig`. -/
theorem probe_decodes (raw : List UInt8) :
    (∃ text, (probeCharset raw).charset.decode raw = some text ∧ (probeCharset raw).surrogatePreserved = false ∧
      ((probeCharset raw).charset = .utf8sig → bomUtf8.isPrefixOf raw = true) ∧ (probeCharset raw).charset ≠ .latin1) ∨
    ((probeCharset raw).charset = .latin1 ∧ (probeCharset raw).surrogatePreserved = true) := by
  unfold probeCharset
  cases hsniff : sniff raw boms with
  | some enc =>
    obtain ⟨bom, hmem, hpre, text, htext⟩ := sniff_some hsniff
    refine .inl ⟨text, htext, rfl, ?_, ?_⟩
    · rintro rfl
      rwa [mark_of_sig hmem] at hpre
    · rintro rfl
      simp [boms] at hmem
  | none =>
    dsimp only
    split
    · next hutf8 =>
      obtain ⟨text, htext⟩ := Option.isSome_iff_exists.1 hutf8
      exact .inl ⟨text, htext, rfl, nofun, nofun⟩
    · split
      · next text htext =>
        split
        · exact .inr ⟨rfl, rfl⟩
        · exact .inl ⟨text, htext, rfl, nofun, nofun⟩
      · exact .inr ⟨rfl, rfl⟩

/-- Subtitle bytes are decoded, and their text gives back exactly the bytes. -/
theorem decode_lossless (raw : List UInt8) : ∃ text probe, decodeSubtitleBytes raw = .ok (text, probe) ∧
    (if probe.surrogatePreserved then recoverRawBytes text = some raw else probe.charset.encode text = some raw) := by
  rcases probe_decodes raw with ⟨text, htext, hclean, hbom, hne⟩ | ⟨hlatin, hpreserved⟩
  · refine ⟨text, probeCharset raw, ?_, ?_⟩
    · rw [decodeSubtitleBytes, if_neg fun h => hne h.1, htext]
    · rw [if_neg (by rw [hclean]; exact Bool.false_ne_true)]
      exact Charset.lossless htext hbom
  · refine ⟨raw.map UInt8.toNat, probeCharset raw, if_pos ⟨hlatin, hpreserved⟩, ?_⟩
    rw [if_pos hpreserved]
    exact recover_bytes raw

end Umd.Subtitle
