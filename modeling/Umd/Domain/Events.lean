import Umd.Lib.Schema
/-!
# Semantic events

The event envelope, the retained payload schemas, and `prepare`: validate a
payload against the schema of its declared version, widen it through the
upcasters to the latest version, and validate it again.
-/

namespace Umd.Events

open Umd.Lib

inductive EventType where
  | SourceIngested
  | SourceAliased
  | FormatAnalyzed
  | SegmentCreated
  | StageCompleted
  | JobRunAudit
  | EntityMentioned
  | EntityResolved
  | ReferenceRebound
  | Aligned
  | SemanticAsserted
  | ContradictionRecorded
  | OverrideApplied
  | CorrectionApplied
  | Locked
  | Unlocked
  | Invalidated
  | LocatorRebased
  | HallucinationFiltered
  /-- A type no schema is retained for. -/
  | other (name : String)
deriving DecidableEq, Repr

/-- The text stored as `event_type`. -/
def EventType.name : EventType → String
  | SourceIngested => "SourceIngested"
  | SourceAliased => "SourceAliased"
  | FormatAnalyzed => "FormatAnalyzed"
  | SegmentCreated => "SegmentCreated"
  | StageCompleted => "StageCompleted"
  | JobRunAudit => "JobRunAudit"
  | EntityMentioned => "EntityMentioned"
  | EntityResolved => "EntityResolved"
  | ReferenceRebound => "ReferenceRebound"
  | Aligned => "Aligned"
  | SemanticAsserted => "SemanticAsserted"
  | ContradictionRecorded => "ContradictionRecorded"
  | OverrideApplied => "OverrideApplied"
  | CorrectionApplied => "CorrectionApplied"
  | Locked => "Locked"
  | Unlocked => "Unlocked"
  | Invalidated => "Invalidated"
  | LocatorRebased => "LocatorRebased"
  | HallucinationFiltered => "HallucinationFiltered"
  | other n => n

/-! ## The retained schemas -/

def isUpper (c : Char) : Bool := 'A' ≤ c ∧ c ≤ 'Z'

def isHex (c : Char) : Bool := ('0' ≤ c ∧ c ≤ '9') ∨ ('a' ≤ c ∧ c ≤ 'f')

/-- What `$` leaves out: one newline at the end. -/
def chompNewline (cs : List Char) : List Char := if cs.getLast? = some '\n' then cs.dropLast else cs

/-- `^[A-Z][A-Z0-9_]{0,63}$` -/
def codePattern (s : String) : Bool :=
  match chompNewline s.toList with
  | [] => false
  | c :: cs => isUpper c && cs.length ≤ 63 && cs.all fun c => isUpper c || c.isDigit || c == '_'

/-- `^[0-9a-f]{128}$` -/
def sha512Pattern (s : String) : Bool :=
  (chompNewline s.toList).length == 128 && (chompNewline s.toList).all isHex

def str? : Schema := .nullable .string
def num? : Schema := .nullable .number
def int? : Schema := .nullable .integer
def code? : Schema := .nullable (.pattern codePattern)

def assertedProps : List (String × Schema) :=
  [("predicate_code", .pattern codePattern), ("subject_ref", .string), ("subject_entity_id", str?),
   ("object_ref", str?), ("object_entity_id", str?), ("authority", str?), ("confidence", num?),
   ("state", .enum ["UNKNOWN", "AMBIGUOUS", "CONFLICTING", "PROBABLE", "CONFIRMED", "USER_CONFIRMED"]),
   ("continuity_id", str?), ("narrative_time", .object), ("spatial", .object), ("support_refs", .strings),
   ("contradiction_refs", .strings), ("derived_from", .strings), ("generated_by", .object)]

def scopeProp : String × Schema := ("scope", .enum ["GLOBAL", "CONTINUITY", "EDITION", "SOURCE"])

def relationshipType : String × Schema := ("relationship_type", code?)

def resolvedProps (kinds : List String) : List (String × Schema) :=
  [("kind", .enum kinds), ("entity_id", .string), ("target_entity_id", str?), ("refs", .strings),
   ("assignments", .object), ("reason", str?), ("quarantined_refs", .strings)]

def resolvedMetadata : List (String × Schema) :=
  [("canonical_type", str?), ("display_label", str?), ("aliases", .strings), ("support_refs", .strings),
   ("attributed_actor", str?), ("membership_tuples", .array (.array .any)),
   ("memberships", .record [] false
     [("work_ids", .strings), ("source_ids", .strings), ("continuity_ids", .strings)]),
   ("state", str?), ("classification", str?), ("confidence", num?)]

def invalidatedProps : List (String × Schema) :=
  [("subject_ref", .string), ("predicate", str?), ("cause", str?), ("scope", str?), ("stage", str?),
   ("refs", .strings)]

def overrideProps : List (String × Schema) :=
  [("subject_ref", .string), ("predicate", .string), ("object_ref", str?), ("authority", .const "USER_OVERRIDE"),
   ("confidence", num?), ("evidence", .strings), ("actor", str?), ("reason", str?)]

def correctionProps : List (String × Schema) :=
  [("subject_ref", .string), ("predicate", .string), ("prior_ref", str?), ("object_ref", str?), ("actor", str?),
   ("reason", str?), ("evidence", .strings)]

def contradictionProps : List (String × Schema) :=
  [("subject_ref", .string), ("predicate", .string), ("contradicting_ref", str?), ("refs", .strings),
   ("evidence", .strings), ("reason", str?)]

def lockProps : List (String × Schema) :=
  [("entity_ref", .string), ("predicate", str?), ("actor", str?), ("reason", str?)]

/-- `load_schema`: the retained schema of a type and version, if there is one. -/
def loadSchema : EventType → Nat → Option Schema
  | .SourceIngested, 1 => some <| .record ["source_id", "sha512", "ocfl_ref", "size_bytes", "media_kind"] true
      [("source_id", .string), ("work_id", str?), ("sha512", .pattern sha512Pattern), ("ocfl_ref", .string),
       ("size_bytes", .integer), ("media_kind", .string), ("format", str?), ("language", str?),
       ("original_name", str?), ("descriptor", .object)]
  | .SourceAliased, 1 => some <| .record ["source_id", "work_id", "role"] true
      [("source_id", .string), ("work_id", .string), ("role", .string), ("reason", str?), ("canonical_id", str?)]
  | .FormatAnalyzed, 1 => some <| .record ["source_id"] true
      [("source_id", .string), ("format", str?), ("media_kind", str?), ("detector", str?), ("detected_mime", str?),
       ("source_locator", str?)]
  | .SegmentCreated, 1 => some <|
      .record ["source_id", "segment_id", "deterministic_key", "modality", "segment_type", "locator"] true
      [("source_id", .string), ("segment_id", .string), ("deterministic_key", .string), ("segment_type", .string),
       ("modality", .string), ("locator", .string), ("ordinal", int?)]
  | .StageCompleted, 1 => some <| .record ["source_id", "stage", "status"] true
      [("source_id", .string), ("stage", .string), ("status", .string), ("artifact_refs", .strings),
       ("evidence_refs", .strings), ("generated_by", .object), ("duration_ms", int?), ("config_digest", str?),
       ("job_id", str?)]
  | .JobRunAudit, 1 => some <| .record ["job_id", "stage_name", "action"] true
      [("job_id", .string), ("stage_name", .string), ("action", .string), ("status", str?), ("attempt", int?),
       ("details", .object), ("started_at", str?), ("finished_at", str?)]
  | .EntityMentioned, 1 => some <| .record ["source_id", "mention_text"] true
      [("mention_id", str?), ("source_id", .string), ("entity_id", str?), ("segment_id", str?),
       ("mention_text", .string), ("normalized_forms", .strings), ("speaker_label", str?), ("evidence", .strings)]
  | .EntityResolved, 1 => some <| .record ["kind", "entity_id"] true (resolvedProps ["MERGE", "SPLIT", "ALIAS"])
  | .EntityResolved, 2 => some <| .record ["kind", "entity_id"] true
      (resolvedProps ["MERGE", "SPLIT", "ALIAS", "ESTABLISH", "UPDATE"] ++ resolvedMetadata)
  | .ReferenceRebound, 1 => some <| .record ["reference"] true
      [("reference", .string), ("from_entity", str?), ("to_entity", str?), ("reason", str?), ("source_refs", .strings)]
  | .Aligned, 1 => some <| .record ["left_ref", "right_ref", "alignment_type"] true
      [("alignment_id", str?), ("left_ref", .string), ("right_ref", .string), ("alignment_type", .string),
       ("method", str?), ("assumptions", .object), ("source_events", .object), ("confidence", num?)]
  | .SemanticAsserted, 1 => some <| .record ["predicate_code", "subject_ref"] true assertedProps
  | .SemanticAsserted, 2 => some <| .record ["predicate_code", "subject_ref", "scope"] true
      (assertedProps ++ [scopeProp])
  | .SemanticAsserted, 3 => some <| .record ["predicate_code", "subject_ref", "scope"] true
      (assertedProps ++ [scopeProp, relationshipType])
  | .ContradictionRecorded, 1 => some <| .record ["subject_ref", "predicate"] true contradictionProps
  | .ContradictionRecorded, 2 => some <| .record ["subject_ref", "predicate"] true
      (relationshipType :: contradictionProps)
  | .OverrideApplied, 1 => some <| .record ["subject_ref", "predicate", "object_ref"] true overrideProps
  | .OverrideApplied, 2 => some <| .record ["subject_ref", "predicate", "object_ref"] true
      (relationshipType :: overrideProps)
  | .CorrectionApplied, 1 => some <| .record ["subject_ref", "predicate"] true correctionProps
  | .CorrectionApplied, 2 => some <| .record ["subject_ref", "predicate"] true (relationshipType :: correctionProps)
  | .Locked, 1 => some <| .record ["entity_ref"] true lockProps
  | .Unlocked, 1 => some <| .record ["entity_ref"] true lockProps
  | .Invalidated, 1 => some <| .record ["subject_ref"] true invalidatedProps
  | .Invalidated, 2 => some <| .record ["subject_ref"] true (relationshipType :: invalidatedProps)
  | .LocatorRebased, 1 => some <| .record ["old_locator", "new_locator"] true
      [("old_locator", .string), ("new_locator", .string), ("reason", str?), ("affected_refs", .strings),
       ("source_id", str?)]
  | .HallucinationFiltered, 1 => some <| .record ["reference", "outcome"] true
      [("source_id", str?), ("reference", .string), ("outcome", .string), ("filter_signal", str?),
       ("signals", .object), ("replaced_with", str?)]
  | _, _ => none

/-- `latest_version`: the highest retained version of a type. -/
def latestVersion : EventType → Option Nat
  | .SemanticAsserted => some 3
  | .EntityResolved | .OverrideApplied | .CorrectionApplied | .Invalidated | .ContradictionRecorded => some 2
  | .other _ => none
  | _ => some 1

/-! ## Upcasters -/

def upcastSemanticAsserted1To2 (payload : Dict) : Dict := payload.setdefault "scope" (.str "GLOBAL")

def upcastEntityResolved1To2 (payload : Dict) : Dict :=
  ((((((payload.setdefault "canonical_type" .null).setdefault "display_label" .null).setdefault "aliases" (.arr []))
    |>.setdefault "support_refs" (.arr [])).setdefault "memberships" (.obj [])).setdefault "state" .null)
    |>.setdefault "confidence" .null

def upcastSemanticAsserted2To3 (payload : Dict) : Dict := payload.setdefault "relationship_type" .null

def upcastMutation1To2 (payload : Dict) : Dict := payload.setdefault "relationship_type" .null

/-- `UPCASTERS`. -/
def upcasters : EventType → Nat → Option (Dict → Dict)
  | .SemanticAsserted, 1 => some upcastSemanticAsserted1To2
  | .EntityResolved, 1 => some upcastEntityResolved1To2
  | .SemanticAsserted, 2 => some upcastSemanticAsserted2To3
  | .OverrideApplied, 1 => some upcastMutation1To2
  | .CorrectionApplied, 1 => some upcastMutation1To2
  | .Invalidated, 1 => some upcastMutation1To2
  | .ContradictionRecorded, 1 => some upcastMutation1To2
  | _, _ => none

/-- At most `n` turns of the loop of `upcast_payload`. -/
def upcastLoop (etype : EventType) : Nat → Nat → Dict → Nat × Dict
  | 0, version, out => (version, out)
  | n + 1, version, out =>
    match upcasters etype version with
    | some f => upcastLoop etype n (version + 1) (f out)
    | none => (version, out)

/-- `upcast_payload`: no type has more than two upcasters. -/
def upcastPayload (etype : EventType) (fromVersion : Nat) (payload : Dict) : Nat × Dict :=
  upcastLoop etype 2 fromVersion payload

/-! ## The envelope -/

structure SemanticEvent where
  eventType : EventType
  payload : Dict := []
  payloadVersion : Option Nat := none
  authority : Option String := none
  confidence : Option Number := none
  generatedBy : Dict := []
  correlationId : Option String := none
  causationId : Option Nat := none
  createdBy : Option String := none
  seq : Option Nat := none

/-- Participates in Tier-0 replay: every type but `JobRunAudit`. -/
def SemanticEvent.isSemantic (ev : SemanticEvent) : Bool := ev.eventType ≠ .JobRunAudit

structure PreparedEvent where
  eventType : EventType
  eventVersion : Nat
  schemaUrl : String
  payload : Dict
  authority : Option String
  confidence : Option Number
  generatedBy : Dict
  correlationId : Option String
  causationId : Option Nat
  createdBy : Option String

inductive EventError where
  /-- `EventSchemaError`. -/
  | schema (etype : EventType) (version : Nat)
  /-- `EventVersionError`. -/
  | version (etype : EventType)
deriving DecidableEq, Repr

def schemaUrl (etype : EventType) (version : Nat) : String :=
  "schemas/events/" ++ etype.name ++ "/v" ++ toString version ++ ".json"

def validatePayload (etype : EventType) (version : Nat) (payload : Dict) : Except EventError Unit :=
  match loadSchema etype version with
  | none => .error (.version etype)
  | some s => if s.valid (.obj payload) then .ok () else .error (.schema etype version)

/-- The version an event declares, the latest retained one where it declares none. -/
def SemanticEvent.declared (ev : SemanticEvent) : Except EventError Nat :=
  match ev.payloadVersion with
  | some v => .ok v
  | none =>
    match latestVersion ev.eventType with
    | some v => .ok v
    | none => .error (.version ev.eventType)

def SemanticEvent.prepare (ev : SemanticEvent) : Except EventError PreparedEvent := do
  let declared ← ev.declared
  validatePayload ev.eventType declared ev.payload
  let (version, upcast) := upcastPayload ev.eventType declared ev.payload
  validatePayload ev.eventType version upcast
  return {
    eventType := ev.eventType
    eventVersion := version
    schemaUrl := schemaUrl ev.eventType version
    payload := upcast
    authority := ev.authority
    confidence := ev.confidence
    generatedBy := ev.generatedBy
    correlationId := ev.correlationId
    causationId := ev.causationId
    createdBy := ev.createdBy }

end Umd.Events
