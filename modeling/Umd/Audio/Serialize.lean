import Umd.Sandbox.Fields
/-!
# Audio results across the sandbox boundary

`audio_output_to_dict` and `audio_output_from_dict`: what is read of what was written
has its defaults filled in (`output_read`).
-/

namespace Umd.Audio

open Umd.Lib Umd.Sandbox

structure LanguageResult where
  language : String
  confidence : PyReal
  provider : String
  sources : List String := []

structure AsrWord where
  word : String
  startS : PyReal
  endS : PyReal
  confidence : PyReal := .zero

structure AsrUtterance where
  index : Int
  text : String
  startS : PyReal
  endS : PyReal
  words : List AsrWord := []
  confidence : PyReal := .zero
  language : Option String := none
  musicSuspected : Bool := false

structure AsrResult where
  provider : String
  providerVersion : String
  language : Option String
  utterances : List AsrUtterance := []
  confidence : PyReal := .zero
  energyCorrelation : PyReal := .zero
  warnings : List String := []
  unmappedCount : Int := 0
  gated : Bool := false
  gateReason : Option String := none
  modelId : Option String := none
  modelVersion : Option String := none
  configDigest : Option String := none
  generatedAt : Option String := none

structure SpeakerCandidate where
  utteranceIndex : Int
  speakerLabel : String
  confidence : PyReal
  generatedBy : String
  startS : PyReal
  endS : PyReal

structure DiarizationResult where
  speakerCandidates : List SpeakerCandidate := []
  provider : String := "umd-reference-diarizer-fallback"
  gated : Bool := false
  gateReason : Option String := none

structure AudioOutput where
  metaDict : Dict := []
  timing : Dict := []
  vad : Dict := []
  language : Option LanguageResult := none
  asr : Option AsrResult := none
  music : List Dict := []
  soundEvents : List Dict := []
  diarization : DiarizationResult := {}
  hallucination : Dict := []
  capabilities : Dict := []
  warnings : List String := []

/-! ## Writing -/

/-- `_lang_to_dict`. -/
def langToDict (lang : LanguageResult) : Json := .obj
  [("language", .str lang.language), ("confidence", ofReal lang.confidence), ("provider", .str lang.provider),
   ("sources", ofStrs lang.sources)]

/-- A word of `_asr_to_dict`. -/
def wordToDict (w : AsrWord) : Json := .obj
  [("word", .str w.word), ("start_s", ofReal w.startS), ("end_s", ofReal w.endS), ("confidence", ofReal w.confidence)]

/-- An utterance of `_asr_to_dict`. -/
def utteranceToDict (u : AsrUtterance) : Json := .obj
  [("index", ofInt u.index), ("text", .str u.text), ("start_s", ofReal u.startS), ("end_s", ofReal u.endS),
   ("confidence", ofReal u.confidence), ("language", ofOption .str u.language), ("music_suspected", .bool u.musicSuspected),
   ("words", .arr (u.words.map wordToDict))]

/-- `_asr_to_dict`. -/
def asrToDict (a : AsrResult) : Json := .obj
  [("provider", .str a.provider), ("provider_version", .str a.providerVersion), ("language", ofOption .str a.language),
   ("confidence", ofReal a.confidence), ("energy_correlation", ofReal a.energyCorrelation), ("warnings", ofStrs a.warnings),
   ("unmapped_count", ofInt a.unmappedCount), ("gated", .bool a.gated), ("gate_reason", ofOption .str a.gateReason),
   ("model_id", ofOption .str a.modelId), ("model_version", ofOption .str a.modelVersion),
   ("config_digest", ofOption .str a.configDigest), ("generated_at", ofOption .str a.generatedAt),
   ("utterances", .arr (a.utterances.map utteranceToDict))]

/-- A candidate of `_diar_to_dict`. -/
def candidateToDict (c : SpeakerCandidate) : Json := .obj
  [("utterance_index", ofInt c.utteranceIndex), ("speaker_label", .str c.speakerLabel), ("confidence", ofReal c.confidence),
   ("generated_by", .str c.generatedBy), ("start_s", ofReal c.startS), ("end_s", ofReal c.endS)]

/-- `_diar_to_dict`. -/
def diarToDict (d : DiarizationResult) : Dict :=
  [("provider", .str d.provider), ("gated", .bool d.gated), ("gate_reason", ofOption .str d.gateReason),
   ("speaker_candidates", .arr (d.speakerCandidates.map candidateToDict))]

/-- `audio_output_to_dict`. -/
def audioOutputToDict (out : AudioOutput) : Json := .obj
  [("meta", .obj out.metaDict), ("timing", .obj out.timing), ("vad", .obj out.vad), ("language", ofOption langToDict out.language),
   ("asr", ofOption asrToDict out.asr), ("music", ofDicts out.music), ("sound_events", ofDicts out.soundEvents),
   ("diarization", .obj (diarToDict out.diarization)), ("hallucination", .obj out.hallucination), ("capabilities", .obj out.capabilities),
   ("warnings", ofStrs out.warnings)]

/-! ## Reading -/

/-- `_lang_from_dict`. -/
def langFromDict (v : Json) : Except PyError LanguageResult := do
  let d ← fields v
  return {
    language := strOr (d.get "language") "unknown"
    confidence := ← realOr (d.get "confidence") .zero
    provider := strOr (d.get "provider") "umd-reference-lang"
    sources := ← listOf asStr (d.get "sources") }

/-- A word of `_asr_from_dict`. -/
def wordFromDict (v : Json) : Except PyError AsrWord := do
  let d ← fields v
  return {
    word := strOr (d.get "word") ""
    startS := ← realOr (d.get "start_s") .zero
    endS := ← realOr (d.get "end_s") .zero
    confidence := ← realOr (d.get "confidence") .zero }

/-- An utterance of `_asr_from_dict`. -/
def utteranceFromDict (v : Json) : Except PyError AsrUtterance := do
  let d ← fields v
  return {
    index := ← intAt d "index"
    text := strOr (d.get "text") ""
    startS := ← realOr (d.get "start_s") .zero
    endS := ← realOr (d.get "end_s") .zero
    confidence := ← realOr (d.get "confidence") .zero
    language := ← optional asStr (d.get "language")
    musicSuspected := (d.get "music_suspected").truthy
    words := ← listOf wordFromDict (d.get "words") }

/-- `_asr_from_dict`. -/
def asrFromDict (v : Json) : Except PyError AsrResult := do
  let d ← fields v
  return {
    provider := strOr (d.get "provider") "umd-reference-asr"
    providerVersion := strOr (d.get "provider_version") "umd-reference-asr v1.0"
    language := ← optional asStr (d.get "language")
    confidence := ← realOr (d.get "confidence") .zero
    energyCorrelation := ← realOr (d.get "energy_correlation") .zero
    warnings := ← listOf asStr (d.get "warnings")
    unmappedCount := ← intOr (d.get "unmapped_count")
    gated := (d.get "gated").truthy
    gateReason := ← optional asStr (d.get "gate_reason")
    modelId := ← optional asStr (d.get "model_id")
    modelVersion := ← optional asStr (d.get "model_version")
    configDigest := ← optional asStr (d.get "config_digest")
    generatedAt := ← optional asStr (d.get "generated_at")
    utterances := ← listOf utteranceFromDict (d.get "utterances") }

/-- A candidate of `_diar_from_dict`. -/
def candidateFromDict (v : Json) : Except PyError SpeakerCandidate := do
  let d ← fields v
  return {
    utteranceIndex := ← intAt d "utterance_index"
    speakerLabel := strOr (d.get "speaker_label") "speaker_unknown_0"
    confidence := ← realOr (d.get "confidence") (.ofNumber (.dec 3 1))
    generatedBy := strOr (d.get "generated_by") "umd-reference-diarizer-fallback"
    startS := ← realOr (d.get "start_s") .zero
    endS := ← realOr (d.get "end_s") .zero }

/-- `_diar_from_dict`. -/
def diarFromDict (d : Dict) : Except PyError DiarizationResult := do
  return {
    provider := strOr (d.get "provider") "umd-reference-diarizer-fallback"
    gated := (d.get "gated").truthy
    gateReason := ← optional asStr (d.get "gate_reason")
    speakerCandidates := ← listOf candidateFromDict (d.get "speaker_candidates") }

/-- `audio_output_from_dict`. -/
def audioOutputFromDict (v : Json) : Except PyError AudioOutput := do
  let d ← fields v
  return {
    metaDict := ← pyDict (d.get "meta")
    timing := ← pyDict (d.get "timing")
    vad := ← pyDict (d.get "vad")
    language := ← optional langFromDict (d.get "language")
    asr := ← optional asrFromDict (d.get "asr")
    music := ← listOf asDict (d.get "music")
    soundEvents := ← listOf asDict (d.get "sound_events")
    diarization := ← diarFromDict (← pyDict (d.get "diarization"))
    hallucination := ← pyDict (d.get "hallucination")
    capabilities := ← pyDict (d.get "capabilities")
    warnings := ← listOf asStr (d.get "warnings") }

/-! ## What is read of what was written -/

/-- A language with the defaults that its reading fills in. -/
def LanguageResult.filled (lang : LanguageResult) : LanguageResult :=
  { lang with
    language := if lang.language = "" then "unknown" else lang.language
    provider := if lang.provider = "" then "umd-reference-lang" else lang.provider }

def AsrResult.filled (a : AsrResult) : AsrResult :=
  { a with
    provider := if a.provider = "" then "umd-reference-asr" else a.provider
    providerVersion := if a.providerVersion = "" then "umd-reference-asr v1.0" else a.providerVersion }

def SpeakerCandidate.filled (c : SpeakerCandidate) : SpeakerCandidate :=
  { c with
    speakerLabel := if c.speakerLabel = "" then "speaker_unknown_0" else c.speakerLabel
    confidence := if c.confidence = .zero then .ofNumber (.dec 3 1) else c.confidence
    generatedBy := if c.generatedBy = "" then "umd-reference-diarizer-fallback" else c.generatedBy }

def DiarizationResult.filled (d : DiarizationResult) : DiarizationResult :=
  { d with
    provider := if d.provider = "" then "umd-reference-diarizer-fallback" else d.provider
    speakerCandidates := d.speakerCandidates.map SpeakerCandidate.filled }

def AudioOutput.filled (out : AudioOutput) : AudioOutput :=
  { out with
    language := out.language.map LanguageResult.filled
    asr := out.asr.map AsrResult.filled
    diarization := out.diarization.filled }

theorem lang_read (lang : LanguageResult) : langFromDict (langToDict lang) = .ok lang.filled := by
  simp [langFromDict, langToDict, fields, Dict.get, Dict.get?, bind, Except.bind, pure, Except.pure, LanguageResult.filled]

theorem word_read (w : AsrWord) : wordFromDict (wordToDict w) = .ok w := by
  simp [wordFromDict, wordToDict, fields, Dict.get, Dict.get?, bind, Except.bind, pure, Except.pure]

theorem utterance_read (u : AsrUtterance) : utteranceFromDict (utteranceToDict u) = .ok u := by
  have hwords : listOf wordFromDict (.arr (u.words.map wordToDict)) = .ok u.words := by
    rw [@listOf_map _ _ wordFromDict wordToDict id word_read, List.map_id]
  simp [utteranceFromDict, utteranceToDict, fields, intAt, Dict.get, Dict.get?, bind, Except.bind, pure, Except.pure, hwords,
    toInt_ofInt]

theorem asr_read (a : AsrResult) : asrFromDict (asrToDict a) = .ok a.filled := by
  have hutterances : listOf utteranceFromDict (.arr (a.utterances.map utteranceToDict)) = .ok a.utterances := by
    rw [@listOf_map _ _ utteranceFromDict utteranceToDict id utterance_read, List.map_id]
  simp [asrFromDict, asrToDict, fields, Dict.get, Dict.get?, bind, Except.bind, pure, Except.pure, hutterances, AsrResult.filled]

theorem candidate_read (c : SpeakerCandidate) : candidateFromDict (candidateToDict c) = .ok c.filled := by
  simp [candidateFromDict, candidateToDict, fields, intAt, Dict.get, Dict.get?, bind, Except.bind, pure, Except.pure, toInt_ofInt,
    SpeakerCandidate.filled]

theorem diar_read (d : DiarizationResult) : diarFromDict (diarToDict d) = .ok d.filled := by
  have hcandidates := listOf_map candidate_read d.speakerCandidates
  simp [diarFromDict, diarToDict, Dict.get, Dict.get?, bind, Except.bind, pure, Except.pure, hcandidates, DiarizationResult.filled]

theorem output_read (out : AudioOutput) : audioOutputFromDict (audioOutputToDict out) = .ok out.filled := by
  have hlang := optional_ofOption lang_read (fun _ => Json.noConfusion) out.language
  have hasr := optional_ofOption asr_read (fun _ => Json.noConfusion) out.asr
  simp [audioOutputFromDict, audioOutputToDict, fields, Dict.get, Dict.get?, bind, Except.bind, pure, Except.pure, hlang, hasr,
    diar_read, AudioOutput.filled]

/-! ## What is kept -/

/-- A result whose reading fills nothing in. -/
structure AudioOutput.Kept (out : AudioOutput) : Prop where
  language : ∀ lang ∈ out.language, lang.language ≠ "" ∧ lang.provider ≠ ""
  asr : ∀ a ∈ out.asr, a.provider ≠ "" ∧ a.providerVersion ≠ ""
  diarization : out.diarization.provider ≠ ""
  candidates : ∀ c ∈ out.diarization.speakerCandidates, c.speakerLabel ≠ "" ∧ c.confidence ≠ .zero ∧ c.generatedBy ≠ ""

theorem LanguageResult.filled_eq_iff (lang : LanguageResult) : lang.filled = lang ↔ lang.language ≠ "" ∧ lang.provider ≠ "" := by
  have hfields : lang.filled = lang ↔ lang.filled.language = lang.language ∧ lang.filled.provider = lang.provider := by
    cases lang
    simp [filled]
  rw [hfields]
  unfold filled
  rw [fill_eq_iff (by decide), fill_eq_iff (by decide)]

theorem AsrResult.filled_eq_iff (a : AsrResult) : a.filled = a ↔ a.provider ≠ "" ∧ a.providerVersion ≠ "" := by
  have hfields : a.filled = a ↔ a.filled.provider = a.provider ∧ a.filled.providerVersion = a.providerVersion := by
    cases a
    simp [filled]
  rw [hfields]
  unfold filled
  rw [fill_eq_iff (by decide), fill_eq_iff (by decide)]

theorem SpeakerCandidate.filled_eq_iff (c : SpeakerCandidate) :
    c.filled = c ↔ c.speakerLabel ≠ "" ∧ c.confidence ≠ .zero ∧ c.generatedBy ≠ "" := by
  have hfields : c.filled = c ↔ c.filled.speakerLabel = c.speakerLabel ∧ c.filled.confidence = c.confidence ∧
      c.filled.generatedBy = c.generatedBy := by
    cases c
    simp [filled]
  have hthird : PyReal.ofNumber (.dec 3 1) ≠ .zero := by decide
  rw [hfields]
  unfold filled
  rw [fill_eq_iff (by decide), fill_eq_iff hthird, fill_eq_iff (by decide)]

theorem DiarizationResult.filled_eq_iff (d : DiarizationResult) : d.filled = d ↔ d.provider ≠ "" ∧
    ∀ c ∈ d.speakerCandidates, c.speakerLabel ≠ "" ∧ c.confidence ≠ .zero ∧ c.generatedBy ≠ "" := by
  have hfields : d.filled = d ↔ d.filled.provider = d.provider ∧ d.filled.speakerCandidates = d.speakerCandidates := by
    cases d
    simp [filled, and_comm]
  rw [hfields]
  unfold filled
  rw [fill_eq_iff (by decide), map_eq_self]
  exact and_congr_right fun _ => forall₂_congr fun c _ => c.filled_eq_iff

/-- An audio result is read back as it was if and only if its reading fills nothing in. -/
theorem output_read_iff (out : AudioOutput) : audioOutputFromDict (audioOutputToDict out) = .ok out ↔ out.Kept := by
  have hmap : ∀ {α : Type} {f : α → α} {x : Option α}, x.map f = x ↔ ∀ a ∈ x, f a = a := by
    intro α f x
    cases x <;> simp
  have hfields : out.filled = out ↔ out.filled.language = out.language ∧ out.filled.asr = out.asr ∧
      out.filled.diarization = out.diarization := by
    cases out
    simp [AudioOutput.filled]
  rw [output_read, Except.ok.injEq, hfields]
  unfold AudioOutput.filled
  rw [hmap, hmap, DiarizationResult.filled_eq_iff]
  constructor
  · rintro ⟨hlang, hasr, hprovider, hcandidates⟩
    exact ⟨fun l hl => l.filled_eq_iff.1 (hlang l hl), fun a ha => a.filled_eq_iff.1 (hasr a ha), hprovider, hcandidates⟩
  · rintro ⟨hlang, hasr, hprovider, hcandidates⟩
    exact ⟨fun l hl => l.filled_eq_iff.2 (hlang l hl), fun a ha => a.filled_eq_iff.2 (hasr a ha), hprovider, hcandidates⟩

end Umd.Audio
