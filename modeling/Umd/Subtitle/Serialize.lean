import Umd.Lib.Base64
import Umd.Sandbox.Fields
/-!
# Subtitle results across the sandbox boundary

`subtitle_output_to_dict` and `subtitle_output_from_dict`: what is read of what was
written has its defaults filled in (`track_read`).
-/

namespace Umd.Subtitle

open Umd.Lib Umd.Sandbox

structure SubtitleEvent where
  index : Int
  startMs : Int
  endMs : Int
  text : String
  style : Option String := none
  speaker : Option String := none
  isHi : Bool := false
  isSdh : Bool := false
  isSign : Bool := false
  isSong : Bool := false
  layer : Option String := none
  actor : Option String := none
  quality : Dict := []

structure SubtitleTrack where
  index : Option Int
  sourceNote : String
  language : Option String := none
  disposition : Dict := []
  title : Option String := none
  codecName : Option String := none
  rawBytes : List UInt8 := []
  charset : String := "utf-8"
  charsetConfidence : PyReal := .ofNumber (.dec 1 0)
  surrogatePreserved : Bool := false
  format : String := "srt"
  normalization : Option Dict := none
  events : List SubtitleEvent := []
  styles : List Dict := []
  metaDict : Dict := []
  translationSource : Option String := none

structure SubtitleOutput where
  tracks : List SubtitleTrack := []
  capability : Dict := []
  warnings : List String := []

/-! ## Writing -/

/-- `_event_to_dict`. -/
def eventToDict (e : SubtitleEvent) : Json := .obj
  [("index", ofInt e.index), ("start_ms", ofInt e.startMs), ("end_ms", ofInt e.endMs), ("text", .str e.text),
   ("style", ofOption .str e.style), ("speaker", ofOption .str e.speaker), ("is_hi", .bool e.isHi), ("is_sdh", .bool e.isSdh),
   ("is_sign", .bool e.isSign), ("is_song", .bool e.isSong), ("layer", ofOption .str e.layer), ("actor", ofOption .str e.actor),
   ("quality", .obj e.quality)]

/-- `_track_to_dict`. -/
def trackToDict (t : SubtitleTrack) : Json := .obj
  [("index", ofOption ofInt t.index), ("source_note", .str t.sourceNote), ("language", ofOption .str t.language),
   ("disposition", .obj t.disposition), ("title", ofOption .str t.title), ("codec_name", ofOption .str t.codecName),
   ("raw_b64", .str (String.ofList (Base64.encode t.rawBytes))), ("charset", .str t.charset),
   ("charset_confidence", ofReal t.charsetConfidence), ("surrogate_preserved", .bool t.surrogatePreserved),
   ("format", .str t.format), ("normalization", ofOption .obj t.normalization), ("events", .arr (t.events.map eventToDict)),
   ("styles", ofDicts t.styles), ("meta", .obj t.metaDict), ("translation_source", ofOption .str t.translationSource)]

/-- `subtitle_output_to_dict`. -/
def subtitleOutputToDict (out : SubtitleOutput) : Json := .obj
  [("tracks", .arr (out.tracks.map trackToDict)), ("capability", .obj out.capability), ("warnings", ofStrs out.warnings)]

/-! ## Reading -/

/-- `_event_from_dict`. -/
def eventFromDict (v : Json) : Except PyError SubtitleEvent := do
  let d ← fields v
  return {
    index := ← intOr (d.get "index")
    startMs := ← intOr (d.get "start_ms")
    endMs := ← intOr (d.get "end_ms")
    text := strOr (d.get "text") ""
    style := ← optional asStr (d.get "style")
    speaker := ← optional asStr (d.get "speaker")
    isHi := (d.get "is_hi").truthy
    isSdh := (d.get "is_sdh").truthy
    isSign := (d.get "is_sign").truthy
    isSong := (d.get "is_song").truthy
    layer := ← optional asStr (d.get "layer")
    actor := ← optional asStr (d.get "actor")
    quality := ← pyDict (d.get "quality") }

/-- The bytes of `raw_b64`, where it has any. -/
def rawFromDict (v : Json) : Except PyError (List UInt8) :=
  if v.truthy then
    match v with
    | .str s => (Base64.decode s.toList).elim (.error .valueError) .ok
    | _ => .error .typeError
  else .ok []

/-- `_track_from_dict`. -/
def trackFromDict (v : Json) : Except PyError SubtitleTrack := do
  let d ← fields v
  return {
    index := ← optional asInt (d.get "index")
    sourceNote := strOr (d.get "source_note") "standalone"
    language := ← optional asStr (d.get "language")
    disposition := ← pyDict (d.get "disposition")
    title := ← optional asStr (d.get "title")
    codecName := ← optional asStr (d.get "codec_name")
    rawBytes := ← rawFromDict (d.get "raw_b64")
    charset := strOr (d.get "charset") "utf-8"
    charsetConfidence := ← realOr (d.get "charset_confidence") (.ofNumber (.dec 1 0))
    surrogatePreserved := (d.get "surrogate_preserved").truthy
    format := strOr (d.get "format") "srt"
    normalization := ← optional asDict (d.get "normalization")
    events := ← listOf eventFromDict (d.get "events")
    styles := ← listOf asDict (d.get "styles")
    metaDict := ← pyDict (d.get "meta")
    translationSource := ← optional asStr (d.get "translation_source") }

/-- `subtitle_output_from_dict`. -/
def subtitleOutputFromDict (v : Json) : Except PyError SubtitleOutput := do
  let d ← fields v
  return {
    tracks := ← listOf trackFromDict (d.get "tracks")
    capability := ← pyDict (d.get "capability")
    warnings := ← listOf asStr (d.get "warnings") }

/-! ## What is read of what was written -/

theorem event_read (e : SubtitleEvent) : eventFromDict (eventToDict e) = .ok e := by
  simp [eventFromDict, eventToDict, fields, Dict.get, Dict.get?, bind, Except.bind, pure, Except.pure]

theorem raw_read (bytes : List UInt8) : rawFromDict (.str (String.ofList (Base64.encode bytes))) = .ok bytes := by
  unfold rawFromDict
  by_cases h : bytes = []
  · rw [h]
    rfl
  · have htruthy : (Json.str (String.ofList (Base64.encode bytes))).truthy = true := by
      simpa [Json.truthy, String.ofList_eq_empty_iff, Base64.encode_eq_nil] using h
    rw [if_pos htruthy]
    simp [Base64.decode_encode]

/-- A track with the defaults that its reading fills in. -/
def SubtitleTrack.filled (t : SubtitleTrack) : SubtitleTrack :=
  { t with
    sourceNote := if t.sourceNote = "" then "standalone" else t.sourceNote
    charset := if t.charset = "" then "utf-8" else t.charset
    charsetConfidence := if t.charsetConfidence = .zero then .ofNumber (.dec 1 0) else t.charsetConfidence
    format := if t.format = "" then "srt" else t.format }

theorem track_read (t : SubtitleTrack) : trackFromDict (trackToDict t) = .ok t.filled := by
  have hevents : listOf eventFromDict (.arr (t.events.map eventToDict)) = .ok t.events := by
    rw [@listOf_map _ _ eventFromDict eventToDict id event_read, List.map_id]
  simp [trackFromDict, trackToDict, fields, Dict.get, Dict.get?, bind, Except.bind, pure, Except.pure, hevents, raw_read,
    SubtitleTrack.filled]

theorem output_read (out : SubtitleOutput) :
    subtitleOutputFromDict (subtitleOutputToDict out) = .ok { out with tracks := out.tracks.map SubtitleTrack.filled } := by
  have htracks := listOf_map track_read out.tracks
  simp [subtitleOutputFromDict, subtitleOutputToDict, fields, Dict.get, Dict.get?, bind, Except.bind, pure, Except.pure, htracks]

/-- A track whose reading fills nothing in. -/
structure SubtitleTrack.Kept (t : SubtitleTrack) : Prop where
  sourceNote : t.sourceNote ≠ ""
  charset : t.charset ≠ ""
  charsetConfidence : t.charsetConfidence ≠ .zero
  format : t.format ≠ ""

theorem SubtitleTrack.filled_eq_iff (t : SubtitleTrack) : t.filled = t ↔ t.Kept := by
  have hone : PyReal.ofNumber (.dec 1 0) ≠ .zero := by decide
  have hfields : t.filled = t ↔ t.filled.sourceNote = t.sourceNote ∧ t.filled.charset = t.charset ∧
      t.filled.charsetConfidence = t.charsetConfidence ∧ t.filled.format = t.format := by
    cases t
    simp [filled]
  rw [hfields]
  unfold filled
  rw [fill_eq_iff (by decide), fill_eq_iff (by decide), fill_eq_iff hone, fill_eq_iff (by decide)]
  exact ⟨fun ⟨h1, h2, h3, h4⟩ => ⟨h1, h2, h3, h4⟩, fun ⟨h1, h2, h3, h4⟩ => ⟨h1, h2, h3, h4⟩⟩

/-- A subtitle result is read back as it was if and only if each of its tracks is. -/
theorem output_read_iff (out : SubtitleOutput) :
    subtitleOutputFromDict (subtitleOutputToDict out) = .ok out ↔ ∀ t ∈ out.tracks, t.Kept := by
  rw [output_read, Except.ok.injEq]
  have htracks : ({ out with tracks := out.tracks.map SubtitleTrack.filled } : SubtitleOutput) = out ↔
      out.tracks.map SubtitleTrack.filled = out.tracks := by
    cases out
    simp
  rw [htracks, map_eq_self]
  exact forall₂_congr fun t _ => t.filled_eq_iff

end Umd.Subtitle
