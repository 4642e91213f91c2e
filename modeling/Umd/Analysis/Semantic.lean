import Umd.Storage.EvidenceRows
/-!
# Semantic observations

The typed observations of `umd.analysis.semantic`: what each of the eleven kinds is written
as, and what is validated of a dictionary. A value that is written is read back
(`validate_dump`), and its kind is told by the one key that no other kind has
(`classify_dump`).
-/

namespace Umd.Semantic

open Umd.Lib Umd.Sandbox Umd.Repositories

/-! ## Values -/

/-- A text of `min_length=1`. -/
structure Text where
  value : String
  nonempty : value ≠ ""
deriving DecidableEq

/-- A coordinate of `ge=1`. -/
structure Ordinal where
  value : ℤ
  pos : 1 ≤ value
deriving DecidableEq

inductive SemanticPath where
  | deterministic | provider
deriving DecidableEq

def SemanticPath.value : SemanticPath → String
  | .deterministic => "deterministic"
  | .provider => "provider"

inductive ConfidenceState where
  | unknown | ambiguous | conflicting | probable | confirmed | userConfirmed
deriving DecidableEq

def ConfidenceState.value : ConfidenceState → String
  | .unknown => "UNKNOWN"
  | .ambiguous => "AMBIGUOUS"
  | .conflicting => "CONFLICTING"
  | .probable => "PROBABLE"
  | .confirmed => "CONFIRMED"
  | .userConfirmed => "USER_CONFIRMED"

inductive Boundary where
  | start | stop
deriving DecidableEq

def Boundary.value : Boundary → String
  | .start => "start"
  | .stop => "end"

structure SegmentEvidenceRef where
  locator : Text
  segmentId : Option String := none
  evidenceRef : Option String := none
  chapter : Option Ordinal := none
  paragraph : Option Ordinal := none
deriving DecidableEq

theorem analyzer_ne : "umd-text-structural@2" ≠ "" := by decide

theorem character_ne : "character" ≠ "" := by decide

structure GeneratedBy where
  path : SemanticPath := .deterministic
  analyzer : Text := ⟨"umd-text-structural@2", analyzer_ne⟩
  provider : Option String := none
  model : Option String := none
  modelVersion : Option String := none
  promptVersion : Option String := none
  configDigest : Option String := none
deriving DecidableEq

/-! ## Observations -/

structure SemanticCandidate where
  confidence : Confidence
  state : ConfidenceState := .probable
  segment : SegmentEvidenceRef
  generatedBy : GeneratedBy

structure SceneBoundary extends SemanticCandidate where
  sceneRef : Text
  boundary : Boundary := .start
  label : Option String := none

structure EntityMention extends SemanticCandidate where
  mention : Text
  entityType : Text := ⟨"character", character_ne⟩
  contextText : Option String := none

structure NormalizedAlias extends SemanticCandidate where
  canonicalName : Text
  aliasText : Text
  entityRef : Option String := none

structure Presence extends SemanticCandidate where
  entity : Text
  presentIn : Text

structure Utterance extends SemanticCandidate where
  utteranceText : Text
  speaker : Option String := none

structure SpeakerCandidate extends SemanticCandidate where
  speakerLabel : Text
  utteranceRef : Option String := none

structure DescriptiveTrait extends SemanticCandidate where
  entity : Text
  trait : Text

structure RelationshipCandidate extends SemanticCandidate where
  subjectRef : Text
  predicate : Text
  objectRef : Text
  relationshipType : Option Text := none

structure EmotionObservation extends SemanticCandidate where
  entity : Text
  emotion : Text

structure StateObservation extends SemanticCandidate where
  entity : Text
  observedState : Text

structure ContextObservation extends SemanticCandidate where
  contextType : Text
  value : Text

/-- The kinds, each with its bucket of a result. -/
inductive Category where
  | sceneBoundaries | entityMentions | aliases | presence | utterances | speakerCandidates | traits | relationships | emotions
  | states | context
deriving DecidableEq

/-- The kinds in the order in which they are parsed, merged and dispatched. -/
def Category.all : List Category :=
  [.sceneBoundaries, .entityMentions, .aliases, .presence, .utterances, .speakerCandidates, .traits, .relationships, .emotions,
    .states, .context]

/-- The key that tells a kind, in `_PROVIDER_OBSERVATION_DISPATCH`. -/
def Category.key : Category → String
  | .sceneBoundaries => "scene_ref"
  | .entityMentions => "mention"
  | .aliases => "canonical_name"
  | .presence => "present_in"
  | .utterances => "utterance_text"
  | .speakerCandidates => "speaker_label"
  | .traits => "trait"
  | .relationships => "predicate"
  | .emotions => "emotion"
  | .states => "observed_state"
  | .context => "context_type"

/-- A candidate of any kind. -/
inductive Observation where
  | sceneBoundary (o : SceneBoundary)
  | entityMention (o : EntityMention)
  | normalizedAlias (o : NormalizedAlias)
  | presence (o : Presence)
  | utterance (o : Utterance)
  | speakerCandidate (o : SpeakerCandidate)
  | trait (o : DescriptiveTrait)
  | relationship (o : RelationshipCandidate)
  | emotion (o : EmotionObservation)
  | state (o : StateObservation)
  | context (o : ContextObservation)

namespace Observation

def category : Observation → Category
  | .sceneBoundary _ => .sceneBoundaries
  | .entityMention _ => .entityMentions
  | .normalizedAlias _ => .aliases
  | .presence _ => .presence
  | .utterance _ => .utterances
  | .speakerCandidate _ => .speakerCandidates
  | .trait _ => .traits
  | .relationship _ => .relationships
  | .emotion _ => .emotions
  | .state _ => .states
  | .context _ => .context

/-- The fields that all kinds have. -/
def candidate : Observation → SemanticCandidate
  | .sceneBoundary o => o.toSemanticCandidate
  | .entityMention o => o.toSemanticCandidate
  | .normalizedAlias o => o.toSemanticCandidate
  | .presence o => o.toSemanticCandidate
  | .utterance o => o.toSemanticCandidate
  | .speakerCandidate o => o.toSemanticCandidate
  | .trait o => o.toSemanticCandidate
  | .relationship o => o.toSemanticCandidate
  | .emotion o => o.toSemanticCandidate
  | .state o => o.toSemanticCandidate
  | .context o => o.toSemanticCandidate

end Observation

/-! ## Writing: `model_dump(mode="json")` -/

def ofText (t : Text) : Json := .str t.value

def ofOrdinal (n : Ordinal) : Json := ofInt n.value

def SegmentEvidenceRef.dump (s : SegmentEvidenceRef) : Dict :=
  [("locator", ofText s.locator), ("segment_id", ofOption .str s.segmentId), ("evidence_ref", ofOption .str s.evidenceRef),
    ("chapter", ofOption ofOrdinal s.chapter), ("paragraph", ofOption ofOrdinal s.paragraph)]

def GeneratedBy.dump (g : GeneratedBy) : Dict :=
  [("path", .str g.path.value), ("analyzer", ofText g.analyzer), ("provider", ofOption .str g.provider), ("model", ofOption .str g.model),
    ("model_version", ofOption .str g.modelVersion), ("prompt_version", ofOption .str g.promptVersion),
    ("config_digest", ofOption .str g.configDigest)]

def SemanticCandidate.dump (c : SemanticCandidate) : Dict :=
  [("confidence", ofReal c.confidence.value), ("state", .str c.state.value), ("segment", .obj c.segment.dump),
    ("generated_by", .obj c.generatedBy.dump)]

namespace Observation

/-- The fields of the kind. -/
def own : Observation → Dict
  | .sceneBoundary o => [("scene_ref", ofText o.sceneRef), ("boundary", .str o.boundary.value), ("label", ofOption .str o.label)]
  | .entityMention o => [("mention", ofText o.mention), ("entity_type", ofText o.entityType), ("context_text", ofOption .str o.contextText)]
  | .normalizedAlias o => [("canonical_name", ofText o.canonicalName), ("alias", ofText o.aliasText), ("entity_ref", ofOption .str o.entityRef)]
  | .presence o => [("entity", ofText o.entity), ("present_in", ofText o.presentIn)]
  | .utterance o => [("utterance_text", ofText o.utteranceText), ("speaker", ofOption .str o.speaker)]
  | .speakerCandidate o => [("speaker_label", ofText o.speakerLabel), ("utterance_ref", ofOption .str o.utteranceRef)]
  | .trait o => [("entity", ofText o.entity), ("trait", ofText o.trait)]
  | .relationship o => [("subject_ref", ofText o.subjectRef), ("predicate", ofText o.predicate), ("object_ref", ofText o.objectRef),
      ("relationship_type", ofOption ofText o.relationshipType)]
  | .emotion o => [("entity", ofText o.entity), ("emotion", ofText o.emotion)]
  | .state o => [("entity", ofText o.entity), ("observed_state", ofText o.observedState)]
  | .context o => [("context_type", ofText o.contextType), ("value", ofText o.value)]

def dump (o : Observation) : Dict := o.candidate.dump ++ o.own

end Observation

/-! ## Reading: `model_validate`

A reader gives nothing where Pydantic raises a `ValidationError`. -/

/-- The texts that are taken for a float and for an integer. -/
structure NumberTexts where
  float : String → Option Number
  int : String → Option ℤ

def readText (j : Json) : Option Text := j.str?.bind fun s => if h : s ≠ "" then some ⟨s, h⟩ else none

def SemanticPath.read (j : Json) : Option SemanticPath := [.deterministic, .provider].find? fun p => j.isStr p.value

def ConfidenceState.read (j : Json) : Option ConfidenceState :=
  [.unknown, .ambiguous, .conflicting, .probable, .confirmed, .userConfirmed].find? fun s => j.isStr s.value

def Boundary.read (j : Json) : Option Boundary := [.start, .stop].find? fun b => j.isStr b.value

/-- A field that has to be there. -/
def field {α : Type} (d : Dict) (k : String) (read : Json → Option α) : Option α := (d.get? k).bind read

/-- A field with a default. -/
def fieldOr {α : Type} (default : α) (d : Dict) (k : String) (read : Json → Option α) : Option α :=
  match d.get? k with
  | none => some default
  | some v => read v

/-- A value, or `None`. -/
def orNull {α : Type} (read : Json → Option α) : Json → Option (Option α)
  | .null => some none
  | v => (read v).map some

def optField {α : Type} (d : Dict) (k : String) (read : Json → Option α) : Option (Option α) := fieldOr none d k (orNull read)

def GeneratedBy.validate (d : Dict) : Option GeneratedBy := do
  let path ← fieldOr .deterministic d "path" SemanticPath.read
  let analyzer ← fieldOr ⟨"umd-text-structural@2", analyzer_ne⟩ d "analyzer" readText
  let provider ← optField d "provider" Json.str?
  let model ← optField d "model" Json.str?
  let modelVersion ← optField d "model_version" Json.str?
  let promptVersion ← optField d "prompt_version" Json.str?
  let configDigest ← optField d "config_digest" Json.str?
  return { path, analyzer, provider, model, modelVersion, promptVersion, configDigest }

section
variable (t : NumberTexts)

/-- The number a value is taken for. -/
def laxNumber : Json → Option Number
  | .num n => some n
  | .bool b => some (boolNum b)
  | .str s => t.float s
  | _ => none

def readConfidence (j : Json) : Option Confidence :=
  (laxNumber t j).bind fun n => if h : inUnit (PyReal.ofNumber n).number = true then some ⟨.ofNumber n, h⟩ else none

/-- The integer a value is taken for: a float without a fraction too. -/
def laxInt : Json → Option ℤ
  | .num (.dec m e) => if m % 10 ^ e = 0 then some (m / 10 ^ e) else none
  | .bool b => some (if b then 1 else 0)
  | .str s => t.int s
  | _ => none

def readOrdinal (j : Json) : Option Ordinal := (laxInt t j).bind fun n => if h : 1 ≤ n then some ⟨n, h⟩ else none

def SegmentEvidenceRef.validate (d : Dict) : Option SegmentEvidenceRef := do
  let locator ← field d "locator" readText
  let segmentId ← optField d "segment_id" Json.str?
  let evidenceRef ← optField d "evidence_ref" Json.str?
  let chapter ← optField d "chapter" (readOrdinal t)
  let paragraph ← optField d "paragraph" (readOrdinal t)
  return { locator, segmentId, evidenceRef, chapter, paragraph }

/-- The fields that all kinds have, with the segment and the provenance they are given. -/
def SemanticCandidate.validate (d : Dict) (segment : SegmentEvidenceRef) (generatedBy : GeneratedBy) : Option SemanticCandidate := do
  let confidence ← field d "confidence" (readConfidence t)
  let state ← fieldOr .probable d "state" ConfidenceState.read
  return { confidence, state, segment, generatedBy }

/-- The class of a kind, validated with the fields that all kinds have. -/
def Category.validateOwn (c : SemanticCandidate) (d : Dict) : Category → Option Observation
  | .sceneBoundaries => do
    let sceneRef ← field d "scene_ref" readText
    let boundary ← fieldOr .start d "boundary" Boundary.read
    let label ← optField d "label" Json.str?
    return .sceneBoundary { c with sceneRef, boundary, label }
  | .entityMentions => do
    let mention ← field d "mention" readText
    let entityType ← fieldOr ⟨"character", character_ne⟩ d "entity_type" readText
    let contextText ← optField d "context_text" Json.str?
    return .entityMention { c with mention, entityType, contextText }
  | .aliases => do
    let canonicalName ← field d "canonical_name" readText
    let aliasText ← field d "alias" readText
    let entityRef ← optField d "entity_ref" Json.str?
    return .normalizedAlias { c with canonicalName, aliasText, entityRef }
  | .presence => do
    let entity ← field d "entity" readText
    let presentIn ← field d "present_in" readText
    return .presence { c with entity, presentIn }
  | .utterances => do
    let utteranceText ← field d "utterance_text" readText
    let speaker ← optField d "speaker" Json.str?
    return .utterance { c with utteranceText, speaker }
  | .speakerCandidates => do
    let speakerLabel ← field d "speaker_label" readText
    let utteranceRef ← optField d "utterance_ref" Json.str?
    return .speakerCandidate { c with speakerLabel, utteranceRef }
  | .traits => do
    let entity ← field d "entity" readText
    let trait ← field d "trait" readText
    return .trait { c with entity, trait }
  | .relationships => do
    let subjectRef ← field d "subject_ref" readText
    let predicate ← field d "predicate" readText
    let objectRef ← field d "object_ref" readText
    let relationshipType ← optField d "relationship_type" readText
    return .relationship { c with subjectRef, predicate, objectRef, relationshipType }
  | .emotions => do
    let entity ← field d "entity" readText
    let emotion ← field d "emotion" readText
    return .emotion { c with entity, emotion }
  | .states => do
    let entity ← field d "entity" readText
    let observedState ← field d "observed_state" readText
    return .state { c with entity, observedState }
  | .context => do
    let contextType ← field d "context_type" readText
    let value ← field d "value" readText
    return .context { c with contextType, value }

/-- `cls.model_validate` of a dictionary whose segment and provenance are values of their classes. -/
def Category.validateWith (category : Category) (d : Dict) (segment : SegmentEvidenceRef) (generatedBy : GeneratedBy) :
    Option Observation :=
  (SemanticCandidate.validate t d segment generatedBy).bind fun c => category.validateOwn c d

/-- `cls.model_validate` of a plain dictionary. -/
def Category.validate (category : Category) (d : Dict) : Option Observation := do
  let segment ← field d "segment" fun j => j.obj?.bind (SegmentEvidenceRef.validate t)
  let generatedBy ← field d "generated_by" fun j => j.obj?.bind GeneratedBy.validate
  category.validateWith t d segment generatedBy

end

/-! ## What is written is read back -/

@[simp] theorem readText_ofText (x : Text) : readText (ofText x) = some x := by
  obtain ⟨value, h⟩ := x
  simp [readText, ofText, Json.str?, h]

@[simp] theorem str?_str (s : String) : (Json.str s).str? = some s := rfl

@[simp] theorem path_read (p : SemanticPath) : SemanticPath.read (.str p.value) = some p := by
  cases p <;> rfl

@[simp] theorem state_read (s : ConfidenceState) : ConfidenceState.read (.str s.value) = some s := by
  cases s <;> rfl

@[simp] theorem boundary_read (b : Boundary) : Boundary.read (.str b.value) = some b := by
  cases b <;> rfl

theorem orNull_ofOption {α : Type} {read : Json → Option α} {write : α → Json} (hread : ∀ a, read (write a) = some a)
    (hnull : ∀ a, write a ≠ .null) (x : Option α) : orNull read (ofOption write x) = some x := by
  cases x with
  | none => rfl
  | some a =>
    unfold ofOption orNull
    split
    · rename_i h
      exact absurd h (hnull a)
    · rw [hread]
      rfl

@[simp] theorem orNull_str (x : Option String) : orNull Json.str? (ofOption .str x) = some x :=
  @orNull_ofOption String Json.str? .str (fun _ => rfl) (fun _ h => nomatch h) x

@[simp] theorem orNull_text (x : Option Text) : orNull readText (ofOption ofText x) = some x :=
  orNull_ofOption readText_ofText (fun _ h => nomatch h) x

section
variable (t : NumberTexts)

@[simp] theorem readConfidence_ofReal (c : Confidence) : readConfidence t (ofReal c.value) = some c := by
  obtain ⟨value, h⟩ := c
  simp [readConfidence, laxNumber, ofReal, h]

@[simp] theorem readOrdinal_ofOrdinal (n : Ordinal) : readOrdinal t (ofOrdinal n) = some n := by
  obtain ⟨value, h⟩ := n
  simp [readOrdinal, laxInt, ofOrdinal, ofInt, h]

@[simp] theorem orNull_ordinal (x : Option Ordinal) : orNull (readOrdinal t) (ofOption ofOrdinal x) = some x :=
  orNull_ofOption (readOrdinal_ofOrdinal t) (fun _ h => nomatch h) x

@[simp] theorem generatedBy_validate (g : GeneratedBy) : GeneratedBy.validate g.dump = some g := by
  simp [GeneratedBy.validate, GeneratedBy.dump, fieldOr, optField, Dict.get?]

@[simp] theorem segment_validate (s : SegmentEvidenceRef) : SegmentEvidenceRef.validate t s.dump = some s := by
  simp [SegmentEvidenceRef.validate, SegmentEvidenceRef.dump, field, fieldOr, optField, Dict.get?]

/-- The fields that all kinds have are read back, whatever follows them. -/
theorem candidate_validate (c : SemanticCandidate) (own : Dict) :
    SemanticCandidate.validate t (c.dump ++ own) c.segment c.generatedBy = some c := by
  simp [SemanticCandidate.validate, SemanticCandidate.dump, field, fieldOr, Dict.get?]

/-- Each kind's own fields are read back. -/
theorem own_validate (o : Observation) : o.category.validateOwn o.candidate o.dump = some o := by
  cases o <;> simp [Observation.category, Observation.candidate, Observation.dump, Observation.own, Category.validateOwn,
    SemanticCandidate.dump, field, fieldOr, optField, Dict.get?]

/-- Every observation is read back from what it is written as. -/
theorem validate_dump (o : Observation) : o.category.validate t o.dump = some o := by
  have hsegment : field o.dump "segment" (fun j => j.obj?.bind (SegmentEvidenceRef.validate t)) = some o.candidate.segment := by
    simp [field, Observation.dump, SemanticCandidate.dump, Dict.get?, Json.obj?]
  have hgenerated : field o.dump "generated_by" (fun j => j.obj?.bind GeneratedBy.validate) = some o.candidate.generatedBy := by
    simp [field, Observation.dump, SemanticCandidate.dump, Dict.get?, Json.obj?]
  unfold Category.validate Category.validateWith
  rw [hsegment, hgenerated]
  change (SemanticCandidate.validate t o.dump o.candidate.segment o.candidate.generatedBy).bind _ = _
  rw [Observation.dump, candidate_validate]
  exact own_validate o

end

/-! ## The kind of what is written -/

/-- `_classify_provider_observation`: the kind whose key is there, if it is one. -/
def classify (payload : Dict) : Option Category :=
  match Category.all.filter fun c => (payload.get? c.key).isSome with
  | [c] => some c
  | _ => none

theorem classify_dump (o : Observation) : classify o.dump = some o.category := by
  cases o <;> rfl

end Umd.Semantic
