import Umd.Analysis.Provider
/-!
# The semantic reconciler

`SemanticReconciler.reconcile`: the surfaces of a resolution are bound to refs, each
observation becomes pending assertions about the refs of its surfaces, the certainty of
an identity caps their state, and of assertions that say the same the first is kept.
-/

namespace Umd.Reconciliation

open Umd.Lib Umd.Projections Umd.Repositories Umd.Semantic

/-! ## What it is given -/

/-- The fields of a canonical entity that the reconciler reads. -/
structure Canonical where
  ref : String
  label : String
  state : String
  classification : String
deriving DecidableEq

/-- The fields of an alias mapping that it reads. -/
structure Mapping where
  aliasRef : String
  canonicalRef : String
  aliasText : String
  confidence : Number
deriving DecidableEq

/-- What the reconciler reads of a `ResolutionBatch`: of an unresolved mention its text, of a contradiction its two refs. -/
structure Resolution where
  canonicalEntities : List Canonical := []
  aliasMappings : List Mapping := []
  unresolved : List String := []
  contradictions : List (String × String) := []

structure ReconciliationInput where
  sourceId : String
  analysis : Buckets
  resolution : Option Resolution := none
  generatedBy : Dict := []
  authority : String := "machine"
  scope : String := "SOURCE"

/-- `str.upper`, and the first twelve digits of the SHA-256 of a text. -/
structure TextFunctions where
  upper : String → String
  digest : String → String

section Buckets

variable (b : Buckets)

def sceneBoundaries : List SceneBoundary := (b .sceneBoundaries).filterMap fun | .sceneBoundary o => some o | _ => none
def entityMentions : List EntityMention := (b .entityMentions).filterMap fun | .entityMention o => some o | _ => none
def aliases : List NormalizedAlias := (b .aliases).filterMap fun | .normalizedAlias o => some o | _ => none
def presence : List Presence := (b .presence).filterMap fun | .presence o => some o | _ => none
def utterances : List Utterance := (b .utterances).filterMap fun | .utterance o => some o | _ => none
def traits : List DescriptiveTrait := (b .traits).filterMap fun | .trait o => some o | _ => none
def relationships : List RelationshipCandidate := (b .relationships).filterMap fun | .relationship o => some o | _ => none
def emotions : List EmotionObservation := (b .emotions).filterMap fun | .emotion o => some o | _ => none
def states : List StateObservation := (b .states).filterMap fun | .state o => some o | _ => none
def context : List ContextObservation := (b .context).filterMap fun | .context o => some o | _ => none

end Buckets

/-! ## Pending assertions -/

/-- What a pending assertion stems from: an alias mapping, an observation of an alias or of another surface that the subject was
resolved from, or anything else. No function reads it. -/
inductive Origin where
  | mapping
  | aliasOf (surface : Option String)
  | about (surface : String)
  | other
deriving DecidableEq

/-- `_Emit`. -/
structure Emit where
  predicate : String
  subjectRef : String
  objectRef : String
  confidence : Number
  obsState : ConfidenceState
  supportRefs : List String
  obsGeneratedBy : Option GeneratedBy
  contradictionRefs : List String := []
  relationshipType : Option String := none
  origin : Origin

/-- `_support_refs`. -/
def supportRefs (segment : SegmentEvidenceRef) : List String :=
  match segment.evidenceRef.filter (· ≠ "") with
  | some ref => [ref]
  | none => [segment.locator.value]

/-- A pending assertion of an observation. -/
def emitOf (origin : Origin) (c : SemanticCandidate) (predicate subject object : String) (relationshipType : Option String := none) : Emit where
  predicate := predicate
  subjectRef := subject
  objectRef := object
  confidence := c.confidence.value.number
  obsState := c.state
  supportRefs := supportRefs c.segment
  obsGeneratedBy := some c.generatedBy
  relationshipType := relationshipType
  origin := origin

variable (f : TextFunctions)

/-- `_deterministic_ref`. -/
def deterministicRef (sourceId kind value : String) : String := kind ++ ":" ++ sourceId ++ ":" ++ f.digest value

/-! ## Relationships -/

/-- `[A-Z][A-Z0-9_]{0,63}` -/
def relTypePattern (s : String) : Bool :=
  match s.toList with
  | [] => false
  | c :: cs => c.isUpper && cs.all (fun c => c.isUpper || c.isDigit || c = '_') && cs.length ≤ 63

/-- `_normalize_relationship_type`. -/
def normalizeRelationshipType (value : Option String) : Option String :=
  (value.map fun v => f.upper (strip v)).filter relTypePattern

/-- `PREDICATE_VOCABULARY`, with all that is registered. -/
def predicateVocabulary : List String :=
  ["SPEAKS", "PRESENT_IN", "CORRESPONDS_TO", "TRANSLATION_OF", "ADAPTATION_OF", "DERIVED_FROM", "CONTRADICTS", "ALIAS_OF", "EXPANDS",
    "OMITS", "REORDERS", "ALTERNATE_REALIZATION", "MENTIONED_IN", "UTTERED_IN", "HAS_TRAIT", "CO_OCCURS", "HAS_EMOTION", "IN_STATE",
    "HAS_CONTEXT", "STARTS_AT", "SIBLING_OF", "RELATED_TO"]

/-- `is_known_predicate`. -/
def isKnownPredicate (code : String) : Bool := predicateVocabulary.contains code

/-- `_relationship_target`. -/
def relationshipTarget (rel : RelationshipCandidate) : Option (String × Option String) :=
  let predicate := f.upper (strip rel.predicate.value)
  let rt := normalizeRelationshipType f (rel.relationshipType.map (·.value))
  if predicate = "RELATED_TO" then rt.map fun rt => ("RELATED_TO", some rt)
  else if predicate = "SIBLING_OF" then
    if rt.any (· ≠ "SIBLING_OF") then none
    else if isKnownPredicate "SIBLING_OF" then some ("SIBLING_OF", none)
    else none
  else if isKnownPredicate predicate then some (predicate, none)
  else if rt.isSome then some ("RELATED_TO", rt)
  else if (normalizeRelationshipType f (some predicate)).isSome then some ("RELATED_TO", some predicate)
  else none

/-! ## Surfaces -/

/-- `_build_surface_map`: the refs of the surfaces, those of labels before those of aliases; the first of a surface counts. -/
def Resolution.surfaces (r : Resolution) : List (String × String) :=
  (r.canonicalEntities.filter (·.label ≠ "")).map (fun ce => (ce.label, ce.ref)) ++
    (r.aliasMappings.filter (·.aliasText ≠ "")).map fun am => (am.aliasText, am.canonicalRef)

namespace ReconciliationInput

variable (input : ReconciliationInput)

def surfaces : List (String × String) := (input.resolution.map Resolution.surfaces).getD []

/-- The ref of an entity that no surface is bound to. -/
def fallback (surface : String) : String := deterministicRef f input.sourceId "entity" surface

/-- `_resolve`. -/
def resolve (surface : Option String) : Option String :=
  (surface.filter (· ≠ "")).map fun s => ((input.surfaces.lookup s).filter (· ≠ "")).getD (input.fallback f s)

/-- An assertion about the entity of a surface. -/
def aboutEntity (c : SemanticCandidate) (predicate : String) (surface : Option String) (object : String) : List Emit :=
  match surface, input.resolve f surface with
  | some s, some subject => [emitOf (.about s) c predicate subject object]
  | _, _ => []

/-! ## Emission -/

/-- `_emit_resolution`, of one mapping. -/
def emitMapping (am : Mapping) : List Emit :=
  let conf := if (Json.num am.confidence).truthy then am.confidence else .dec 0 1
  let emit predicate subject object : Emit :=
    { predicate := predicate, subjectRef := subject, objectRef := object, confidence := conf, obsState := .probable
      supportRefs := [am.aliasRef], obsGeneratedBy := none, origin := .mapping }
  emit "ALIAS_OF" am.aliasRef am.canonicalRef :: if am.aliasText ≠ "" then [emit "KNOWN_AS" am.canonicalRef am.aliasText] else []

def emitResolution : List Emit := ((input.resolution.map Resolution.aliasMappings).getD []).flatMap emitMapping

def emitScene (sb : SceneBoundary) : List Emit :=
  if sb.boundary = .start then [emitOf .other sb.toSemanticCandidate "STARTS_AT" sb.sceneRef.value sb.segment.locator.value] else []

def emitAlias (al : NormalizedAlias) : List Emit :=
  let given := al.entityRef.filter (· ≠ "")
  let canonical := given.or (input.resolve f (some al.canonicalName.value))
  let aliasRef := (input.resolve f (some al.aliasText.value)).getD (input.fallback f al.aliasText.value)
  match canonical with
  | none => []
  | some canonical =>
    [emitOf (.aliasOf (some al.aliasText.value)) al.toSemanticCandidate "ALIAS_OF" aliasRef canonical,
      emitOf (.aliasOf (if given.isSome then none else some al.canonicalName.value)) al.toSemanticCandidate "KNOWN_AS" canonical
        al.aliasText.value]

def emitMention (em : EntityMention) : List Emit :=
  input.aboutEntity f em.toSemanticCandidate "MENTIONED_IN" (some em.mention.value) em.segment.locator.value

def emitPresence (pr : Presence) : List Emit :=
  input.aboutEntity f pr.toSemanticCandidate "PRESENT_IN" (some pr.entity.value) pr.presentIn.value

def emitUtterance (obs : Utterance) : List Emit :=
  let utteranceRef := deterministicRef f input.sourceId "utterance" obs.segment.locator.value
  input.aboutEntity f obs.toSemanticCandidate "SPEAKS" obs.speaker utteranceRef ++
    [emitOf .other obs.toSemanticCandidate "UTTERED_IN" utteranceRef obs.segment.locator.value]

def emitTrait (tr : DescriptiveTrait) : List Emit :=
  input.aboutEntity f tr.toSemanticCandidate "HAS_TRAIT" (some tr.entity.value) tr.trait.value

def emitRelationship (rel : RelationshipCandidate) : List Emit :=
  match relationshipTarget f rel, input.resolve f (some rel.subjectRef.value), input.resolve f (some rel.objectRef.value) with
  | some (predicate, relType), some subject, some object =>
    [emitOf (.about rel.subjectRef.value) rel.toSemanticCandidate predicate subject object relType]
  | _, _, _ => []

def emitEmotion (emo : EmotionObservation) : List Emit :=
  input.aboutEntity f emo.toSemanticCandidate "HAS_EMOTION" (some emo.entity.value) emo.emotion.value

def emitState (st : StateObservation) : List Emit :=
  input.aboutEntity f st.toSemanticCandidate "IN_STATE" (some st.entity.value) st.observedState.value

def emitContext (ctx : ContextObservation) : List Emit :=
  [emitOf .other ctx.toSemanticCandidate "HAS_CONTEXT" ctx.segment.locator.value ctx.value.value]

/-- `_emit_observations`. -/
def emitObservations : List Emit :=
  (sceneBoundaries input.analysis).flatMap emitScene ++ (aliases input.analysis).flatMap (input.emitAlias f) ++
    (entityMentions input.analysis).flatMap (input.emitMention f) ++ (presence input.analysis).flatMap (input.emitPresence f) ++
    (utterances input.analysis).flatMap (input.emitUtterance f) ++ (traits input.analysis).flatMap (input.emitTrait f) ++
    (relationships input.analysis).flatMap (input.emitRelationship f) ++ (emotions input.analysis).flatMap (input.emitEmotion f) ++
    (states input.analysis).flatMap (input.emitState f) ++ (context input.analysis).flatMap emitContext

def pending : List Emit := input.emitResolution ++ input.emitObservations f

/-! ## States -/

/-- `_build_ceiling_refs`. -/
def ceilingRefs : List String :=
  match input.resolution with
  | none => []
  | some r => (r.canonicalEntities.filter fun ce => ce.classification ≠ "accepted" && ce.state ≠ "USER_CONFIRMED").map (·.ref) ++
      r.unresolved.map (input.fallback f)

/-- `_build_conflicted`. -/
def conflicted : List String := ((input.resolution.map Resolution.contradictions).getD []).flatMap fun c => [c.1, c.2]

end ReconciliationInput

/-- `>=` of floats. -/
def atLeast (least : ℚ) : Number → Bool
  | .dec m e => least ≤ m / 10 ^ e
  | .inf => true
  | _ => false

/-- `_promote`. -/
def promote (confidence : Number) (obsState : ConfidenceState) : ConfidenceState :=
  if obsState = .ambiguous then .ambiguous
  else if obsState = .conflicting then .conflicting
  else if atLeast (4 / 5) confidence then .confirmed
  else if atLeast (1 / 2) confidence then .probable
  else .unknown

namespace ReconciliationInput

variable (input : ReconciliationInput)

/-- `_state_for`. -/
def stateFor (e : Emit) : ConfidenceState :=
  let state := promote e.confidence e.obsState
  if input.conflicted.contains e.subjectRef && state ≠ .ambiguous && state ≠ .conflicting then .conflicting
  else if (input.ceilingRefs f).contains e.subjectRef && (state = .confirmed || state = .userConfirmed) then .probable
  else state

end ReconciliationInput

/-! ## Assertions -/

/-- What an assertion says; of those that say the same the first is kept. -/
def Emit.key (e : Emit) : String × String × String × Option String := (e.predicate, e.subjectRef, e.objectRef, e.relationshipType)

/-- The pending assertions whose key is not in `seen`, each at its first. -/
def keepNew (seen : List (String × String × String × Option String)) : List Emit → List Emit
  | [] => []
  | e :: es => if e.key ∈ seen then keepNew seen es else e :: keepNew (e.key :: seen) es

/-- `_provenance`. -/
def provenance (inputGb : Dict) (obsGb : Option GeneratedBy) : Dict :=
  let out := match obsGb with
    | none => inputGb
    | some gb =>
      let out := inputGb.setdefault "path" (.str gb.path.value)
      let named : List (String × Option String) := [("analyzer", some gb.analyzer.value), ("provider", gb.provider),
        ("model", gb.model), ("model_version", gb.modelVersion), ("prompt_version", gb.promptVersion)]
      let out := named.foldl (fun (out : Dict) (p : String × Option String) => match p.2 with
        | some v => out.setdefault p.1 (.str v)
        | none => out) out
      match gb.configDigest.filter (· ≠ "") with
      | some digest => out.set "config_digest" (.str digest)
      | none => out
  out.setdefault "config_digest" (.str "umd-semantic-reconciliation@1")

/-- The payload of a `SemanticAsserted` event. -/
structure Assertion where
  predicateCode : String
  subjectRef : String
  objectRef : String
  authority : String
  confidence : Number
  state : ConfidenceState
  scope : String
  supportRefs : List String
  contradictionRefs : List String
  relationshipType : Option String
  generatedBy : Dict

namespace ReconciliationInput

variable (input : ReconciliationInput)

def assertionOf (e : Emit) : Assertion where
  predicateCode := e.predicate
  subjectRef := e.subjectRef
  objectRef := e.objectRef
  authority := input.authority
  confidence := e.confidence
  state := input.stateFor f e
  scope := input.scope
  supportRefs := e.supportRefs
  contradictionRefs := e.contradictionRefs
  relationshipType := e.relationshipType
  generatedBy := provenance input.generatedBy e.obsGeneratedBy

/-- The pending assertions that are emitted. -/
def kept : List Emit := keepNew [] (input.pending f)

/-- `reconcile`. -/
def reconcile : List Assertion := (input.kept f).map (input.assertionOf f)

end ReconciliationInput

end Umd.Reconciliation
