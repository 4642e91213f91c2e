import Umd.Lib.JsonDict
import Umd.Storage.EvidenceRows
import Umd.Subtitle.Serialize
/-!
# Subtitle evidence

The evidence of `build_subtitle_evidence_plan`. A cue's locator has its index and not its
track, so the tracks of one source are kept only where they share no index
(`subtitle_kept_iff`, `one_track_of_index`).
-/

namespace Umd.Subtitle

open Umd.Lib Umd.Sandbox Umd.Repositories

/-- The arguments of a plan that its evidence takes over. -/
structure PlanArgs where
  sourceId : String
  configDigest : Option String := none

/-- `_tool_versions`. -/
def toolVersions : Dict := [("segmenter", .str "umd-subtitle"), ("parser", .str "pysubs2"), ("renderer", .str "reference")]

/-- `SUBTITLE_EVENT_CONFIDENCE`. -/
def subtitleEventConfidence : Confidence := ⟨.ofNumber (.dec 9 1), inUnit_nine_tenths⟩

/-- `track_id`. -/
def SubtitleTrack.trackId (t : SubtitleTrack) : Int := t.index.getD 0

/-- `meta_quality`. -/
def metaQuality (t : SubtitleTrack) : Dict :=
  [("kind", .str "subtitle_track"), ("format", .str t.format), ("language", ofOption .str t.language), ("title", ofOption .str t.title),
   ("disposition", .obj t.disposition), ("charset", .str t.charset), ("charset_confidence", ofReal t.charsetConfidence),
   ("surrogate_preserved", .bool t.surrogatePreserved), ("source_note", .str t.sourceNote), ("scan_type", .str "independent_track"),
   ("independent_source", .bool true)] ++ (t.normalization.map fun n => ("webvtt_normalization", Json.obj n)).toList

def cueQuality (t : SubtitleTrack) (e : SubtitleEvent) : Dict :=
  [("start_ms", ofInt e.startMs), ("end_ms", ofInt e.endMs), ("text", .str e.text), ("style", ofOption .str e.style),
   ("speaker", ofOption .str e.speaker), ("actor", ofOption .str e.actor), ("layer", ofOption .str e.layer),
   ("subtitle_flags", .obj [("hi", .bool e.isHi), ("sdh", .bool e.isSdh), ("sign", .bool e.isSign), ("song", .bool e.isSong)]),
   ("verbatim_preserved", .bool true), ("independent_track", ofInt t.trackId)]

section

variable (p : PlanArgs)

def metaEvidence (t : SubtitleTrack) : Evidence where
  sourceId := p.sourceId
  evidenceKind := .metadata
  locator := some ("subtitle/track/" ++ toString t.trackId)
  language := t.language
  track := some (toString t.trackId)
  extractionStage := some "FORMAT_ANALYSIS"
  toolVersions := toolVersions
  configDigest := p.configDigest
  confidence := some ⟨.ofNumber (.dec 10 1), inUnit_one⟩
  quality := metaQuality t

def cueEvidence (t : SubtitleTrack) (e : SubtitleEvent) : Evidence where
  sourceId := p.sourceId
  evidenceKind := .subtitleEvent
  locator := some ("subtitle/subtitle_event/" ++ toString e.index)
  language := t.language
  track := some (toString t.trackId)
  extractionStage := some "LOW_LEVEL_EXTRACTION"
  toolVersions := toolVersions
  configDigest := p.configDigest
  confidence := some subtitleEventConfidence
  quality := cueQuality t e

/-- `build_subtitle_evidence_plan(...).evidence`. -/
def buildSubtitleEvidencePlan (t : SubtitleTrack) : List Evidence := metaEvidence p t :: t.events.map (cueEvidence p t)

/-- The evidence of all tracks, recorded track by track. -/
def subtitleBatches (out : SubtitleOutput) : List (List Evidence) := out.tracks.map (buildSubtitleEvidencePlan p)

end

/-! ## What is kept -/

/-- The cues with their tracks. -/
def SubtitleOutput.cues (out : SubtitleOutput) : List (SubtitleTrack × SubtitleEvent) :=
  out.tracks.flatMap fun t => t.events.map fun e => (t, e)

/-- Tracks of one id and cues of one index have one quality payload. -/
structure SubtitleDistinct (out : SubtitleOutput) : Prop where
  tracks : OneQuality SubtitleTrack.trackId metaQuality out.tracks
  cues : OneQuality (fun c => c.2.index) (fun c => cueQuality c.1 c.2) out.cues

variable {p : PlanArgs}

/-- The evidence of all tracks by kinds. -/
def subtitleParts (p : PlanArgs) (out : SubtitleOutput) : List (EvidenceKind × List Evidence) :=
  [(.metadata, out.tracks.map (metaEvidence p)), (.subtitleEvent, out.cues.map fun c => cueEvidence p c.1 c.2)]

theorem mem_subtitleBatches {out : SubtitleOutput} {ev : Evidence} :
    ev ∈ (subtitleBatches p out).flatten ↔ ev ∈ (subtitleParts p out).flatMap (·.2) := by
  simp only [subtitleBatches, buildSubtitleEvidencePlan, subtitleParts, SubtitleOutput.cues, List.mem_flatten, List.mem_map,
    List.flatMap_cons, List.flatMap_nil, List.append_nil, List.mem_append, List.mem_flatMap]
  constructor
  · rintro ⟨_, ⟨t, ht, rfl⟩, hev⟩
    rcases List.mem_cons.1 hev with rfl | hev
    · exact .inl ⟨t, ht, rfl⟩
    · obtain ⟨e, he, rfl⟩ := List.mem_map.1 hev
      exact .inr ⟨(t, e), ⟨t, ht, e, he, rfl⟩, rfl⟩
  · rintro (⟨t, ht, rfl⟩ | ⟨_, ⟨t, ht, e, he, rfl⟩, rfl⟩)
    · exact ⟨_, ⟨t, ht, rfl⟩, List.mem_cons_self⟩
    · exact ⟨_, ⟨t, ht, rfl⟩, List.mem_cons_of_mem _ (List.mem_map_of_mem he)⟩

theorem subtitle_kept_iff (t : EvidenceTable) (out : SubtitleOutput) :
    Kept t (subtitleBatches p out) ↔ StoredAgree t (subtitleBatches p out).flatten ∧ SubtitleDistinct out := by
  rw [kept_iff, agree_iff]
  refine and_congr_right fun _ => ?_
  have hsort : ∀ part ∈ subtitleParts p out, ∀ ev ∈ part.2, ev.identity.2.2.1 = part.1 := by
    simp only [subtitleParts, List.forall_mem_cons, List.forall_mem_map, List.not_mem_nil, false_implies, implies_true, and_true]
    exact ⟨fun _ _ => rfl, fun _ _ => rfl⟩
  have hkinds : ((subtitleParts p out).map (·.1)).Nodup := by
    change [EvidenceKind.metadata, .subtitleEvent].Nodup
    decide
  rw [consistent_congr fun _ => mem_subtitleBatches, consistent_sorts (fun k => k.2.2.1) hkinds hsort]
  simp only [subtitleParts, List.forall_mem_cons, List.not_mem_nil, false_implies, implies_true, and_true]
  rw [consistent_map fun x y => numbered_iff "subtitle/track/" _ _ _ x.trackId y.trackId,
    consistent_map fun x y => numbered_iff "subtitle/subtitle_event/" _ _ _ x.2.index y.2.index]
  exact ⟨fun h => ⟨h.1, h.2⟩, fun h => ⟨h.tracks, h.cues⟩⟩

/-- Cues of one index come from tracks of one id. -/
theorem one_track_of_index {out : SubtitleOutput} (h : SubtitleDistinct out) {c c' : SubtitleTrack × SubtitleEvent} (hc : c ∈ out.cues)
    (hc' : c' ∈ out.cues) (hindex : c.2.index = c'.2.index) : c.1.trackId = c'.1.trackId := by
  have hkeys : ∀ c : SubtitleTrack × SubtitleEvent, (cueQuality c.1 c.2).keys = ["start_ms", "end_ms", "text", "style", "speaker", "actor",
      "layer", "subtitle_flags", "verbatim_preserved", "independent_track"] := fun _ => rfl
  have hnodup : ∀ c : SubtitleTrack × SubtitleEvent, (cueQuality c.1 c.2).keys.Nodup := fun c => hkeys c ▸ by decide
  have hq := h.cues c hc c' hc' hindex
  rw [jsonb, jsonb, norm_obj (hnodup c), norm_obj (hnodup c'), Json.obj.injEq] at hq
  have hget := get?_readBack (hnodup c) "independent_track"
  rw [hq, get?_readBack (hnodup c')] at hget
  have htrack : some (ofInt c'.1.trackId).norm = some (ofInt c.1.trackId).norm := hget
  simp only [ofInt, Json.norm, Number.norm, decimal, Option.some.injEq, Json.num.injEq, Number.dec.injEq, and_true] at htrack
  exact htrack.symm

end Umd.Subtitle
