import Umd.Sandbox.Fields
/-!
# Video results across the sandbox boundary

`video_output_to_dict` and `video_output_from_dict`: what is read of what was written
has its defaults filled in (`output_read`).
-/

namespace Umd.Video

open Umd.Lib Umd.Sandbox

structure VideoTrack where
  index : Int
  codecType : String
  codecName : String
  language : Option String := none
  disposition : Dict := []
  title : Option String := none
  width : Option Int := none
  height : Option Int := none
  timeBase : Option String := none
  avgFrameRate : Option String := none
  rFrameRate : Option String := none
  pixFmt : Option String := none
  sampleRate : Option Int := none
  channels : Option Int := none
  ptsStart : Option Int := none
  duration : Option PyReal := none
  nbFrames : Option Int := none
  tags : Dict := []

/-- `SceneBoundary`, and `ShotBoundary`, which has the same fields. -/
structure SceneBoundary where
  index : Int
  startPts : Option Int
  startS : PyReal
  endS : PyReal
  threshold : PyReal
  provider : String := "umd-reference-scene"

abbrev ShotBoundary := SceneBoundary

structure FrameAnchor where
  index : Int
  pts : Option Int
  ptsTimeS : PyReal
  picType : Option String := none

structure VideoObservation where
  kind : String
  label : String
  confidence : PyReal
  generatedBy : String
  note : Option String := none
  quality : Dict := []

structure VideoOutput where
  metaDict : Dict := []
  timing : Dict := []
  inventory : List VideoTrack := []
  scenes : List SceneBoundary := []
  shots : List ShotBoundary := []
  frameAnchors : List FrameAnchor := []
  observations : List VideoObservation := []
  audioTracks : List Dict := []
  subtitleTracks : List Dict := []
  capabilities : Dict := []
  warnings : List String := []

/-! ## Writing -/

/-- `_track_to_dict`. -/
def trackToDict (t : VideoTrack) : Json := .obj
  [("index", ofInt t.index), ("codec_type", .str t.codecType), ("codec_name", .str t.codecName),
   ("language", ofOption .str t.language), ("disposition", .obj t.disposition), ("title", ofOption .str t.title),
   ("width", ofOption ofInt t.width), ("height", ofOption ofInt t.height), ("time_base", ofOption .str t.timeBase),
   ("avg_frame_rate", ofOption .str t.avgFrameRate), ("r_frame_rate", ofOption .str t.rFrameRate),
   ("pix_fmt", ofOption .str t.pixFmt), ("sample_rate", ofOption ofInt t.sampleRate), ("channels", ofOption ofInt t.channels),
   ("pts_start", ofOption ofInt t.ptsStart), ("duration", ofOption ofReal t.duration), ("nb_frames", ofOption ofInt t.nbFrames),
   ("tags", .obj t.tags)]

/-- `_scene_to_dict`. -/
def sceneToDict (s : SceneBoundary) : Json := .obj
  [("index", ofInt s.index), ("start_pts", ofOption ofInt s.startPts), ("start_s", ofReal s.startS), ("end_s", ofReal s.endS),
   ("threshold", ofReal s.threshold), ("provider", .str s.provider)]

/-- `_shot_to_dict`. -/
def shotToDict (s : ShotBoundary) : Json := sceneToDict s

/-- `_frame_to_dict`. -/
def frameToDict (f : FrameAnchor) : Json := .obj
  [("index", ofInt f.index), ("pts", ofOption ofInt f.pts), ("pts_time_s", ofReal f.ptsTimeS), ("pic_type", ofOption .str f.picType)]

/-- `_obs_to_dict`. -/
def obsToDict (o : VideoObservation) : Json := .obj
  [("kind", .str o.kind), ("label", .str o.label), ("confidence", ofReal o.confidence), ("generated_by", .str o.generatedBy),
   ("note", ofOption .str o.note), ("quality", .obj o.quality)]

/-- `video_output_to_dict`. -/
def videoOutputToDict (out : VideoOutput) : Json := .obj
  [("meta", .obj out.metaDict), ("timing", .obj out.timing), ("inventory", .arr (out.inventory.map trackToDict)),
   ("scenes", .arr (out.scenes.map sceneToDict)), ("shots", .arr (out.shots.map shotToDict)),
   ("frame_anchors", .arr (out.frameAnchors.map frameToDict)), ("observations", .arr (out.observations.map obsToDict)),
   ("audio_tracks", ofDicts out.audioTracks), ("subtitle_tracks", ofDicts out.subtitleTracks),
   ("capabilities", .obj out.capabilities), ("warnings", ofStrs out.warnings)]

/-! ## Reading -/

/-- `_track_from_dict`. -/
def trackFromDict (v : Json) : Except PyError VideoTrack := do
  let d ← fields v
  return {
    index := ← intOr (d.get "index")
    codecType := strOr (d.get "codec_type") "unknown"
    codecName := strOr (d.get "codec_name") "unknown"
    language := ← optional asStr (d.get "language")
    disposition := ← pyDict (d.get "disposition")
    title := ← optional asStr (d.get "title")
    width := ← optional asInt (d.get "width")
    height := ← optional asInt (d.get "height")
    timeBase := ← optional asStr (d.get "time_base")
    avgFrameRate := ← optional asStr (d.get "avg_frame_rate")
    rFrameRate := ← optional asStr (d.get "r_frame_rate")
    pixFmt := ← optional asStr (d.get "pix_fmt")
    sampleRate := ← optional asInt (d.get "sample_rate")
    channels := ← optional asInt (d.get "channels")
    ptsStart := ← optional asInt (d.get "pts_start")
    duration := ← optional asReal (d.get "duration")
    nbFrames := ← optional asInt (d.get "nb_frames")
    tags := ← pyDict (d.get "tags") }

/-- `_scene_from_dict`. -/
def sceneFromDict (v : Json) : Except PyError SceneBoundary := do
  let d ← fields v
  return {
    index := ← intOr (d.get "index")
    startPts := ← optional asInt (d.get "start_pts")
    startS := ← realOr (d.get "start_s") .zero
    endS := ← realOr (d.get "end_s") .zero
    threshold := ← realOr (d.get "threshold") .zero
    provider := strOr (d.get "provider") "umd-reference-scene" }

/-- `_shot_from_dict`. -/
def shotFromDict (v : Json) : Except PyError ShotBoundary := sceneFromDict v

/-- `_frame_from_dict`. -/
def frameFromDict (v : Json) : Except PyError FrameAnchor := do
  let d ← fields v
  return {
    index := ← intOr (d.get "index")
    pts := ← optional asInt (d.get "pts")
    ptsTimeS := ← realOr (d.get "pts_time_s") .zero
    picType := ← optional asStr (d.get "pic_type") }

/-- `_obs_from_dict`. -/
def obsFromDict (v : Json) : Except PyError VideoObservation := do
  let d ← fields v
  return {
    kind := strOr (d.get "kind") "temporal"
    label := strOr (d.get "label") ""
    confidence := ← realOr (d.get "confidence") .zero
    generatedBy := strOr (d.get "generated_by") "umd-reference-video v1.0"
    note := ← optional asStr (d.get "note")
    quality := ← pyDict (d.get "quality") }

/-- `video_output_from_dict`. -/
def videoOutputFromDict (v : Json) : Except PyError VideoOutput := do
  let d ← fields v
  return {
    metaDict := ← pyDict (d.get "meta")
    timing := ← pyDict (d.get "timing")
    inventory := ← listOf trackFromDict (d.get "inventory")
    scenes := ← listOf sceneFromDict (d.get "scenes")
    shots := ← listOf shotFromDict (d.get "shots")
    frameAnchors := ← listOf frameFromDict (d.get "frame_anchors")
    observations := ← listOf obsFromDict (d.get "observations")
    audioTracks := ← listOf asDict (d.get "audio_tracks")
    subtitleTracks := ← listOf asDict (d.get "subtitle_tracks")
    capabilities := ← pyDict (d.get "capabilities")
    warnings := ← listOf asStr (d.get "warnings") }

/-! ## What is read of what was written -/

/-- A track with the defaults that its reading fills in. -/
def VideoTrack.filled (t : VideoTrack) : VideoTrack :=
  { t with
    codecType := if t.codecType = "" then "unknown" else t.codecType
    codecName := if t.codecName = "" then "unknown" else t.codecName }

def SceneBoundary.filled (s : SceneBoundary) : SceneBoundary :=
  { s with provider := if s.provider = "" then "umd-reference-scene" else s.provider }

def VideoObservation.filled (o : VideoObservation) : VideoObservation :=
  { o with
    kind := if o.kind = "" then "temporal" else o.kind
    generatedBy := if o.generatedBy = "" then "umd-reference-video v1.0" else o.generatedBy }

def VideoOutput.filled (out : VideoOutput) : VideoOutput :=
  { out with
    inventory := out.inventory.map VideoTrack.filled
    scenes := out.scenes.map SceneBoundary.filled
    shots := out.shots.map SceneBoundary.filled
    observations := out.observations.map VideoObservation.filled }

theorem track_read (t : VideoTrack) : trackFromDict (trackToDict t) = .ok t.filled := by
  simp [trackFromDict, trackToDict, fields, Dict.get, Dict.get?, bind, Except.bind, pure, Except.pure, VideoTrack.filled]

theorem scene_read (s : SceneBoundary) : sceneFromDict (sceneToDict s) = .ok s.filled := by
  simp [sceneFromDict, sceneToDict, fields, Dict.get, Dict.get?, bind, Except.bind, pure, Except.pure, SceneBoundary.filled]

theorem frame_read (f : FrameAnchor) : frameFromDict (frameToDict f) = .ok f := by
  simp [frameFromDict, frameToDict, fields, Dict.get, Dict.get?, bind, Except.bind, pure, Except.pure]

theorem obs_read (o : VideoObservation) : obsFromDict (obsToDict o) = .ok o.filled := by
  simp [obsFromDict, obsToDict, fields, Dict.get, Dict.get?, bind, Except.bind, pure, Except.pure, VideoObservation.filled]

theorem output_read (out : VideoOutput) : videoOutputFromDict (videoOutputToDict out) = .ok out.filled := by
  have hframes : listOf frameFromDict (.arr (out.frameAnchors.map frameToDict)) = .ok out.frameAnchors := by
    rw [@listOf_map _ _ frameFromDict frameToDict id frame_read, List.map_id]
  have hshots : listOf shotFromDict (.arr (out.shots.map shotToDict)) = .ok (out.shots.map SceneBoundary.filled) :=
    listOf_map scene_read out.shots
  simp [videoOutputFromDict, videoOutputToDict, fields, Dict.get, Dict.get?, bind, Except.bind, pure, Except.pure,
    listOf_map track_read, listOf_map scene_read, listOf_map obs_read, hframes, hshots, VideoOutput.filled]

/-! ## What is kept -/

/-- A result whose reading fills nothing in. -/
structure VideoOutput.Kept (out : VideoOutput) : Prop where
  inventory : ∀ t ∈ out.inventory, t.codecType ≠ "" ∧ t.codecName ≠ ""
  scenes : ∀ s ∈ out.scenes, s.provider ≠ ""
  shots : ∀ s ∈ out.shots, s.provider ≠ ""
  observations : ∀ o ∈ out.observations, o.kind ≠ "" ∧ o.generatedBy ≠ ""

theorem VideoTrack.filled_eq_iff (t : VideoTrack) : t.filled = t ↔ t.codecType ≠ "" ∧ t.codecName ≠ "" := by
  have hfields : t.filled = t ↔ t.filled.codecType = t.codecType ∧ t.filled.codecName = t.codecName := by
    cases t
    simp [filled]
  rw [hfields]
  unfold filled
  rw [fill_eq_iff (by decide), fill_eq_iff (by decide)]

theorem SceneBoundary.filled_eq_iff (s : SceneBoundary) : s.filled = s ↔ s.provider ≠ "" := by
  have hfields : s.filled = s ↔ s.filled.provider = s.provider := by
    cases s
    simp [filled]
  rw [hfields]
  unfold filled
  rw [fill_eq_iff (by decide)]

theorem VideoObservation.filled_eq_iff (o : VideoObservation) : o.filled = o ↔ o.kind ≠ "" ∧ o.generatedBy ≠ "" := by
  have hfields : o.filled = o ↔ o.filled.kind = o.kind ∧ o.filled.generatedBy = o.generatedBy := by
    cases o
    simp [filled]
  rw [hfields]
  unfold filled
  rw [fill_eq_iff (by decide), fill_eq_iff (by decide)]

/-- A video result is read back as it was if and only if its reading fills nothing in. -/
theorem output_read_iff (out : VideoOutput) : videoOutputFromDict (videoOutputToDict out) = .ok out ↔ out.Kept := by
  have hfields : out.filled = out ↔ out.filled.inventory = out.inventory ∧ out.filled.scenes = out.scenes ∧
      out.filled.shots = out.shots ∧ out.filled.observations = out.observations := by
    cases out
    simp [VideoOutput.filled]
  rw [output_read, Except.ok.injEq, hfields]
  unfold VideoOutput.filled
  rw [map_eq_self, map_eq_self, map_eq_self, map_eq_self]
  simp only [VideoTrack.filled_eq_iff, SceneBoundary.filled_eq_iff, VideoObservation.filled_eq_iff]
  exact ⟨fun ⟨h1, h2, h3, h4⟩ => ⟨h1, h2, h3, h4⟩, fun ⟨h1, h2, h3, h4⟩ => ⟨h1, h2, h3, h4⟩⟩

end Umd.Video
