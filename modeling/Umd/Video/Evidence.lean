import Umd.Lib.Python
import Umd.Storage.EvidenceRows
import Umd.Video.Serialize
/-!
# Video evidence

The evidence of `build_video_evidence_plan`. Parts of the video are told apart by their
index, and all candidate observations have one locator (`video_kept_iff`).
-/

namespace Umd.Video

open Umd.Lib Umd.Sandbox Umd.Repositories

/-- The arguments of a plan that its evidence takes over. -/
structure PlanArgs where
  sourceId : String
  configDigest : Option String := none

/-- `_tool_versions`. -/
def toolVersions : Dict := [("segmenter", .str "umd-video"), ("decoder", .str "ffmpeg"), ("renderer", .str "reference")]

/-- `PROMOTION_BAN`. -/
def promotionBan : Dict := [("promotion_ban", .bool true), ("can_auto_promote", .bool false)]

/-- A record of a plan. -/
def PlanArgs.evidence (p : PlanArgs) (kind : EvidenceKind) (locator : Option String) (stage : String) (conf : Confidence)
    (quality : Dict) : Evidence where
  sourceId := p.sourceId
  evidenceKind := kind
  locator := locator
  extractionStage := some stage
  toolVersions := toolVersions
  configDigest := p.configDigest
  confidence := some conf
  quality := quality

def confidence (m : Int) (e : Nat) (h : inUnit (PyReal.ofNumber (.dec m e)).number = true) : Confidence := ⟨.ofNumber (.dec m e), h⟩

def trackQuality (t : VideoTrack) : Dict :=
  [("kind", .str "stream_inventory"), ("codec_type", .str t.codecType), ("codec_name", .str t.codecName),
   ("disposition", .obj t.disposition), ("title", ofOption .str t.title), ("width", ofOption ofInt t.width),
   ("height", ofOption ofInt t.height), ("time_base", ofOption .str t.timeBase), ("avg_frame_rate", ofOption .str t.avgFrameRate),
   ("sample_rate", ofOption ofInt t.sampleRate), ("channels", ofOption ofInt t.channels), ("duration", ofOption ofReal t.duration),
   ("pts_start", ofOption ofInt t.ptsStart)]

def sceneQuality (s : SceneBoundary) : Dict :=
  [("start_s", ofReal s.startS), ("end_s", ofReal s.endS), ("start_pts", ofOption ofInt s.startPts), ("threshold", ofReal s.threshold),
   ("provider", .str s.provider), ("generated_by", .obj [("provider", .str s.provider)])]

def sceneTimeQuality (s : SceneBoundary) : Dict :=
  [("kind", .str "scene_time"), ("start_s", ofReal s.startS), ("end_s", ofReal s.endS), ("segmentation", .str "PTS-native")]

def shotQuality (s : ShotBoundary) : Dict :=
  [("kind", .str "shot"), ("start_s", ofReal s.startS), ("end_s", ofReal s.endS), ("start_pts", ofOption ofInt s.startPts),
   ("provider", .str s.provider)]

def frameQuality (f : FrameAnchor) : Dict :=
  [("pts", ofOption ofInt f.pts), ("pts_time_s", ofReal f.ptsTimeS), ("pic_type", ofOption .str f.picType), ("pts_native", .bool true)]

def observationQuality (o : VideoObservation) : Dict :=
  Dict.update
    [("kind", .str (o.kind ++ "_observation")), ("candidate_kind", .str "observation"), ("label", .str o.label),
     ("note", ofOption .str o.note), ("generated_by", .obj [("provider", .str o.generatedBy)]), ("promotion_ban", .obj promotionBan)]
    o.quality

def timingQuality (timing : Dict) : Dict :=
  [("duration_s", timing.get "duration_s"), ("fps", timing.get "fps"), ("time_base", timing.get "time_base"),
   ("generated_by", .obj [("provider", .str "umd-reference-video"), ("version", .str "v1.0")])]

/-- An entry of `audio_compose`. -/
def composeEntry (t : VideoTrack) : Json := .obj
  [("video_track_index", .null), ("audio_track_index", ofInt t.index), ("language", ofOption .str t.language),
   ("pts_start", ofOption ofInt t.ptsStart), ("audio_branch", .str "umd.audio baseline")]

/-- `d[k]` -/
def fieldAt (d : Dict) (k : String) : Except PyError Json := (d.get? k).elim (.error .keyError) .ok

/-- An entry of the announced subtitle tracks. -/
def subtitleEntry (st : Dict) : Except PyError Json := do
  return .obj [("index", ← fieldAt st "index"), ("codec_name", ← fieldAt st "codec_name"), ("language", ← fieldAt st "language")]

def compositionQuality (out : VideoOutput) (subtitles : List Json) : Dict :=
  [("kind", .str "video_audio_composition"), ("audio_tracks", .arr ((out.inventory.filter (·.codecType = "audio")).map composeEntry)),
   ("subtitle_tracks", .arr subtitles), ("audio_branch", .str "Phase-2 audio baseline (independent) — never flattened"),
   ("subtitle_tracks_independent_sources", .bool true)]

section

variable (p : PlanArgs)

def trackEvidence (t : VideoTrack) : Evidence :=
  { p.evidence .metadata (some ("video/track/" ++ toString t.index)) "FORMAT_ANALYSIS" (confidence 10 1 inUnit_one) (trackQuality t) with
    language := t.language
    track := some (toString t.index) }

def sceneEvidence (s : SceneBoundary) : Evidence :=
  p.evidence .sceneBoundary (some ("video/scene/" ++ toString s.index)) "LOW_LEVEL_EXTRACTION" (confidence 8 1 rfl) (sceneQuality s)

def sceneTimeEvidence (s : SceneBoundary) : Evidence :=
  p.evidence .videoInterval (some ("video/scene/" ++ toString s.index)) "LOW_LEVEL_EXTRACTION" (confidence 8 1 rfl) (sceneTimeQuality s)

def shotEvidence (s : ShotBoundary) : Evidence :=
  p.evidence .sceneBoundary (some ("video/shot/" ++ toString s.index)) "LOW_LEVEL_EXTRACTION" (confidence 7 1 rfl) (shotQuality s)

def frameEvidence (f : FrameAnchor) : Evidence :=
  p.evidence .frame (some ("video/frame/" ++ toString f.index)) "LOW_LEVEL_EXTRACTION" (confidence 10 1 inUnit_one) (frameQuality f)

-- `round(x, 4)`
variable (round4 : PyReal → PyReal)

/-- The evidence of an observation, whose confidence is validated. -/
def observationEvidence (o : VideoObservation) : Except PyError Evidence :=
  if h : inUnit (round4 o.confidence).number = true then
    .ok (p.evidence .metadata (some "video/file/1") "STRUCTURAL_ANALYSIS" ⟨round4 o.confidence, h⟩ (observationQuality o))
  else .error .valueError

def timingEvidence (out : VideoOutput) : Evidence :=
  p.evidence .timing none "LOW_LEVEL_EXTRACTION" (confidence 10 1 inUnit_one) (timingQuality out.timing)

def compositionEvidence (out : VideoOutput) (subtitles : List Json) : Evidence :=
  p.evidence .metadata (some "video/file/1#composition/audio") "LOW_LEVEL_EXTRACTION" (confidence 10 1 inUnit_one)
    (compositionQuality out subtitles)

/-- `build_video_evidence_plan(...).evidence`. -/
def buildVideoEvidencePlan (out : VideoOutput) : Except PyError (List Evidence) := do
  let observations ← out.observations.mapM (observationEvidence p round4)
  let subtitles ← out.subtitleTracks.mapM subtitleEntry
  return out.inventory.map (trackEvidence p) ++ out.scenes.flatMap (fun s => [sceneEvidence p s, sceneTimeEvidence p s]) ++
    out.shots.map (shotEvidence p) ++ out.frameAnchors.map (frameEvidence p) ++ observations ++
    [timingEvidence p out, compositionEvidence p out subtitles]

/-! ## What is kept -/

/-- Parts of one index have one quality payload, and all observations have one. -/
structure VideoDistinct (out : VideoOutput) : Prop where
  inventory : OneQuality VideoTrack.index trackQuality out.inventory
  scenes : OneQuality SceneBoundary.index sceneQuality out.scenes
  sceneTimes : OneQuality SceneBoundary.index sceneTimeQuality out.scenes
  shots : OneQuality SceneBoundary.index shotQuality out.shots
  frameAnchors : OneQuality FrameAnchor.index frameQuality out.frameAnchors
  observations : ∀ o ∈ out.observations, ∀ o' ∈ out.observations, jsonb (observationQuality o) = jsonb (observationQuality o')

variable {p round4}

theorem observationEvidence_ok {o : VideoObservation} {ev : Evidence} (h : observationEvidence p round4 o = .ok ev) :
    ev.identity = (p.sourceId, "video/file/1", .metadata, p.configDigest.getD "") ∧ ev.quality = observationQuality o := by
  unfold observationEvidence at h
  split at h
  · cases h
    exact ⟨rfl, rfl⟩
  · cases h

theorem consistent_observations {out : VideoOutput} {evs : List Evidence}
    (h : out.observations.mapM (observationEvidence p round4) = .ok evs) :
    Consistent evs ↔ ∀ o ∈ out.observations, ∀ o' ∈ out.observations, jsonb (observationQuality o) = jsonb (observationQuality o') := by
  constructor
  · intro hc o ho o' ho'
    obtain ⟨ev, hev, hok⟩ := mapM_each h o ho
    obtain ⟨ev', hev', hok'⟩ := mapM_each h o' ho'
    obtain ⟨hid, hq⟩ := observationEvidence_ok hok
    obtain ⟨hid', hq'⟩ := observationEvidence_ok hok'
    rw [← hq, ← hq']
    exact hc ev hev ev' hev' (hid.trans hid'.symm)
  · intro hone ev hev ev' hev' _
    obtain ⟨o, ho, hok⟩ := mapM_mem h ev hev
    obtain ⟨o', ho', hok'⟩ := mapM_mem h ev' hev'
    rw [(observationEvidence_ok hok).2, (observationEvidence_ok hok').2]
    exact hone o ho o' ho'

theorem mem_flatMap_pair {α β : Type} {f g : α → β} {xs : List α} {y : β} :
    y ∈ xs.flatMap (fun x => [f x, g x]) ↔ y ∈ xs.map f ∨ y ∈ xs.map g := by
  simp only [List.mem_flatMap, List.mem_map, List.mem_cons, List.not_mem_nil, or_false, and_or_left, exists_or, eq_comm]

/-- What tells the sorts of records apart: the kind, the second letter of the locator's sort, and for a file what follows it. -/
def sortOf (k : Identity) : EvidenceKind × Option Char × Option Char :=
  let letter := k.2.1.toList[7]?
  (k.2.2.1, letter, if letter = some 'i' then k.2.1.toList[12]? else none)

theorem sortOf_numbered (before : String) {c : Char} (hlen : 7 < before.toList.length) (hc : before.toList[7]? = some c) (hi : c ≠ 'i')
    (sid : String) (n : Int) (kind : EvidenceKind) (digest : String) :
    sortOf (sid, before ++ toString n, kind, digest) = (kind, some c, none) := by
  simp only [sortOf, locator_start hlen, hc, Option.some.injEq, if_neg hi]

/-- The evidence of a plan by sorts. -/
def videoParts (p : PlanArgs) (out : VideoOutput) (observations : List Evidence) (subtitles : List Json) :
    List ((EvidenceKind × Option Char × Option Char) × List Evidence) :=
  [((.metadata, some 'r', none), out.inventory.map (trackEvidence p)),
   ((.sceneBoundary, some 'c', none), out.scenes.map (sceneEvidence p)),
   ((.videoInterval, some 'c', none), out.scenes.map (sceneTimeEvidence p)),
   ((.sceneBoundary, some 'h', none), out.shots.map (shotEvidence p)),
   ((.frame, some 'r', none), out.frameAnchors.map (frameEvidence p)),
   ((.metadata, some 'i', none), observations),
   ((.timing, none, none), [timingEvidence p out]),
   ((.metadata, some 'i', some '#'), [compositionEvidence p out subtitles])]

theorem videoParts_distinct (p : PlanArgs) (out : VideoOutput) (observations : List Evidence) (subtitles : List Json) :
    ((videoParts p out observations subtitles).map (·.1)).Nodup := by
  have hsorts : (videoParts p out observations subtitles).map (·.1) =
      [(.metadata, some 'r', none), (.sceneBoundary, some 'c', none), (.videoInterval, some 'c', none), (.sceneBoundary, some 'h', none),
       (.frame, some 'r', none), (.metadata, some 'i', none), (.timing, none, none), (.metadata, some 'i', some '#')] := rfl
  rw [hsorts]
  decide

theorem videoParts_sorted {out : VideoOutput} {observations : List Evidence} {subtitles : List Json}
    (h : out.observations.mapM (observationEvidence p round4) = .ok observations) :
    ∀ part ∈ videoParts p out observations subtitles, ∀ ev ∈ part.2, sortOf ev.identity = part.1 := by
  simp only [videoParts, List.forall_mem_cons, List.forall_mem_map, List.not_mem_nil, false_implies, implies_true, and_true]
  refine ⟨fun t _ => ?_, fun s _ => ?_, fun s _ => ?_, fun s _ => ?_, fun f _ => ?_, fun ev hev => ?_, ?_, ?_⟩
  · exact sortOf_numbered "video/track/" (by decide) (by decide) (by decide) ..
  · exact sortOf_numbered "video/scene/" (by decide) (by decide) (by decide) ..
  · exact sortOf_numbered "video/scene/" (by decide) (by decide) (by decide) ..
  · exact sortOf_numbered "video/shot/" (by decide) (by decide) (by decide) ..
  · exact sortOf_numbered "video/frame/" (by decide) (by decide) (by decide) ..
  · obtain ⟨o, -, ho⟩ := mapM_mem h ev hev
    have hsort : sortOf ("", "video/file/1", .metadata, "") = (.metadata, some 'i', none) := by decide
    rw [(observationEvidence_ok ho).1]
    exact hsort
  · rfl
  · have hsort : sortOf ("", "video/file/1#composition/audio", .metadata, "") = (.metadata, some 'i', some '#') := by decide
    exact hsort

theorem video_kept_iff (t : EvidenceTable) {out : VideoOutput} {evs : List Evidence} (h : buildVideoEvidencePlan p round4 out = .ok evs) :
    Kept t [evs] ↔ StoredAgree t evs ∧ VideoDistinct out := by
  rw [kept_iff, List.flatten_singleton, agree_iff]
  refine and_congr_right fun _ => ?_
  unfold buildVideoEvidencePlan at h
  cases hobs : out.observations.mapM (observationEvidence p round4) with
  | error e => rw [hobs] at h; cases h
  | ok observations =>
    cases hsub : out.subtitleTracks.mapM subtitleEntry with
    | error e => rw [hobs, hsub] at h; cases h
    | ok subtitles =>
      rw [hobs, hsub] at h
      cases h
      have hmem : ∀ ev, ev ∈ out.inventory.map (trackEvidence p) ++
            out.scenes.flatMap (fun s => [sceneEvidence p s, sceneTimeEvidence p s]) ++ out.shots.map (shotEvidence p) ++
            out.frameAnchors.map (frameEvidence p) ++ observations ++ [timingEvidence p out, compositionEvidence p out subtitles] ↔
          ev ∈ (videoParts p out observations subtitles).flatMap (·.2) := by
        intro ev
        simp only [videoParts, List.flatMap_cons, List.flatMap_nil, List.append_nil, List.mem_append, mem_flatMap_pair, List.mem_cons,
          List.not_mem_nil, or_false, or_assoc]
      rw [consistent_congr hmem, consistent_sorts sortOf (videoParts_distinct ..) (videoParts_sorted hobs)]
      simp only [videoParts, List.forall_mem_cons, List.not_mem_nil, false_implies, implies_true, and_true]
      rw [consistent_observations hobs, consistent_map fun x y => numbered_iff "video/track/" _ _ _ x.index y.index,
        consistent_map fun x y => numbered_iff "video/scene/" _ _ _ x.index y.index,
        consistent_map fun x y => numbered_iff "video/scene/" _ _ _ x.index y.index,
        consistent_map fun x y => numbered_iff "video/shot/" _ _ _ x.index y.index,
        consistent_map fun x y => numbered_iff "video/frame/" _ _ _ x.index y.index]
      constructor
      · rintro ⟨hinventory, hscenes, htimes, hshots, hframes, hobservations, -, -⟩
        exact ⟨hinventory, hscenes, htimes, hshots, hframes, hobservations⟩
      · exact fun hd => ⟨hd.inventory, hd.scenes, hd.sceneTimes, hd.shots, hd.frameAnchors, hd.observations, consistent_singleton _,
          consistent_singleton _⟩

end

end Umd.Video
