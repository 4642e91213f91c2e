import Umd.Storage.Mirror
import Umd.Projections.Driver
/-!
# The active-edge projection

`ActiveSemanticEdgeProjectionBuilder`: assertions and user authority put edges
under the digest of the fact they state, overrides, corrections and
invalidations deactivate the edges they target, and a contradiction marks them.
Nothing is deleted.
-/

namespace Umd.Projections

open Umd.Lib Umd.Events Umd.Reducer Umd.Ledger

/-- A row of `active_semantic_edge`. -/
structure EdgeRow where
  factId : Uuid
  eventType : EventType
  predicate : String
  subjectRef : String
  objectRef : Option String
  authority : Json
  confidence : Json
  state : Json
  scope : Json
  supportRefs : Json
  contradictionRefs : Json
  derivation : Dict
  active : Bool
  supersededBySeq : Option Nat
  supersededByFact : Option Uuid
  ledgerSeq : Nat

/-- The rows of `active_semantic_edge`, each fact id once. -/
abbrev EdgeTable := List EdgeRow

/-- A value bound to a text column. -/
def bindText : Json → Except PyError String
  | .str s => .ok s
  | _ => .error .typeError

/-- A value bound to a text column that may be `NULL`. -/
def bindText? : Json → Except PyError (Option String)
  | .null => .ok none
  | .str s => .ok (some s)
  | _ => .error .typeError

/-- `derivation[k].astext`. -/
def asText : Json → Option String
  | .null => none
  | .str s => some s
  | j => some (dumps j)

/-! ## What an update is restricted to -/

/-- The conditions of an `UPDATE` or a `SELECT` on active edges; `none` is no condition. -/
structure Target where
  subjectRef : String
  predicate : Option String := none
  scope : Option String := none
  relationshipType : Option String := none
  /-- The prior object or the prior fact id of a correction. -/
  priorRef : Option String := none

def Target.hits (c : Target) (r : EdgeRow) : Bool :=
  r.active && r.subjectRef == c.subjectRef && c.predicate.all (· == r.predicate) && c.scope.all r.scope.isStr &&
    c.relationshipType.all (fun rel => asText (r.derivation.get "relationship_type") == some rel) &&
    c.priorRef.all fun prior => r.objectRef == some prior || r.factId == prior

/-- A text that is there and not empty. -/
def nonEmpty (s : Option String) : Option String := s.filter (· ≠ "")

/-! ## Writes -/

/-- `_override_fact_id`. -/
def overrideFactId (etype : EventType) (subj pred obj : String) (relType : Option String) : Uuid :=
  uuid5 ("edge:v1:" ++ dumpsWith "," ":" (.obj
    [("event_type", .str etype.name), ("authority", .str userOverride), ("subject_ref", .str subj),
     ("predicate", .str pred), ("object_ref", .str obj), ("relationship_type", Json.ofStr? relType)]))

/-- `_normalize_narrative_time`. -/
def normalizeNarrativeTime : Json → Json
  | .obj d => .obj d
  | .null => .null
  | j => .obj [("from", j), ("to", j)]

/-- The `derivation` of a row that is put. -/
def edgeDerivation (ev : SemanticEvent) (seq : Nat) : Dict :=
  [("generated_by", pyOr (ev.payload.get "generated_by") (.obj ev.generatedBy)),
   ("derived_from", pyOr (ev.payload.get "derived_from") (.arr [])),
   ("source_seq", .num (.dec seq 0)),
   ("event_type", .str ev.eventType.name),
   ("source_refs", pyOr (ev.payload.get "support_refs") (.arr [])),
   ("narrative_time", normalizeNarrativeTime (ev.payload.get "narrative_time")),
   ("spatial", ev.payload.get "spatial"),
   ("relationship_type", ev.payload.get "relationship_type")]

/-- The values of `_upsert`. -/
def edgeValues (factId : Uuid) (pred subj : String) (obj : Option String) (ev : SemanticEvent) (seq : Nat)
    (state authority : Json) : EdgeRow where
  factId := factId
  eventType := ev.eventType
  predicate := pred
  subjectRef := subj
  objectRef := obj
  authority := authority
  confidence := if (ev.payload.get "confidence").isNone then Json.ofNum? ev.confidence else ev.payload.get "confidence"
  state := state
  scope := pyOr (ev.payload.get "scope") (.str "GLOBAL")
  supportRefs := pyOr (ev.payload.get "support_refs") (.arr [])
  contradictionRefs := pyOr (ev.payload.get "contradiction_refs") (.arr [])
  derivation := edgeDerivation ev seq
  active := true
  supersededBySeq := none
  supersededByFact := none
  ledgerSeq := seq

/-- `_upsert`: the row inserted, or every column of the row with its fact id set. -/
def EdgeTable.upsert (t : EdgeTable) (row : EdgeRow) : EdgeTable :=
  if t.any (·.factId = row.factId) then t.map fun r => if r.factId = row.factId then row else r else t ++ [row]

/-- The values `_deactivate` sets. -/
def EdgeRow.deactivated (r : EdgeRow) (seq : Nat) : EdgeRow :=
  { r with active := false, supersededBySeq := some seq, ledgerSeq := seq }

/-- `_deactivate`. -/
def EdgeTable.deactivate (t : EdgeTable) (c : Target) (seq : Nat) : EdgeTable :=
  t.map fun r => if c.hits r then r.deactivated seq else r

def isHashable : Json → Bool
  | .arr _ => false
  | .obj _ => false
  | _ => true

/-- The refs added to the merged ones, each once. -/
def addRefs (merged : List Json) : List Json → Except PyError (List Json)
  | [] => .ok merged
  | ref :: refs =>
    if isHashable ref then addRefs (if pyIn ref merged then merged else merged ++ [ref]) refs else .error .typeError

/-- The refs `_mark_conflicting` leaves on a row. -/
def mergedConflicts (r : EdgeRow) (p : Dict) : Except PyError (List Json) := do
  let existing ← pyList r.contradictionRefs
  let merged ← addRefs [] existing
  let refs ← pyList (p.get "refs")
  let merged ← addRefs merged refs
  let merged ← if (p.get "contradicting_ref").isNone then pure merged else addRefs merged [p.get "contradicting_ref"]
  return merged.filter fun v => !v.isNone

/-- The values `_mark_conflicting` sets. -/
def EdgeRow.conflicting (r : EdgeRow) (refs : List Json) (seq : Nat) : EdgeRow :=
  { r with contradictionRefs := .arr refs, state := .str "CONFLICTING", ledgerSeq := seq }

/-- `_mark_conflicting` on the rows it selects. -/
def markRow (c : Target) (p : Dict) (seq : Nat) (r : EdgeRow) : Except PyError EdgeRow :=
  if c.hits r then (mergedConflicts r p).map fun refs => r.conflicting refs seq else .ok r

def EdgeTable.markConflicting (t : EdgeTable) (c : Target) (p : Dict) (seq : Nat) : Except PyError EdgeTable :=
  t.mapM (markRow c p seq)

/-! ## The builder -/

/-- The authority an asserted edge takes. -/
def assertedAuthority (ev : SemanticEvent) : Json :=
  pyOr (pyOr (ev.payload.get "authority") (Json.ofStr? ev.authority)) (.str "machine")

/-- The `SemanticAsserted` branch of `apply`. -/
def applyAsserted (d : Driver) (ev : SemanticEvent) (t : EdgeTable) : Except PyError EdgeTable := do
  let p := ev.payload
  if !(p.get "predicate_code").truthy || !(p.get "subject_ref").truthy then return t
  let subj ← bindText (p.get "subject_ref")
  -- a locked entity: the assertion stays history
  if d.state.locks subj then return t
  let pred ← bindText (p.get "predicate_code")
  let obj ← bindText? (p.get "object_ref")
  let state := pyOr (p.get "state") (.str "UNKNOWN")
  let factId := assertionFactId p ((latestVersion .SemanticAsserted).getD 0)
  return t.upsert (edgeValues factId pred subj obj ev (ev.seq.getD 0) state (assertedAuthority ev))

/-- The `OverrideApplied` and `CorrectionApplied` branch of `apply`. -/
def applyOverride (d : Driver) (ev : SemanticEvent) (t : EdgeTable) : Except PyError EdgeTable := do
  let p := ev.payload
  let seq := ev.seq.getD 0
  if !(p.get "predicate").truthy || !(p.get "subject_ref").truthy then return t
  let subj ← bindText (p.get "subject_ref")
  if d.state.locks subj then return t
  let pred ← bindText (p.get "predicate")
  let prior ← if ev.eventType = .CorrectionApplied then bindText? (p.get "prior_ref") else pure none
  let relType ← bindText? (p.get "relationship_type")
  let target : Target :=
    { subjectRef := subj, predicate := some pred, relationshipType := relType, priorRef := nonEmpty prior }
  let t := t.deactivate target seq
  match ← bindText? (p.get "object_ref") with
  | none => return t
  | some obj =>
    let factId := overrideFactId ev.eventType subj pred obj relType
    return t.upsert (edgeValues factId pred subj (some obj) ev seq (.str "USER_CONFIRMED") (.str userOverride))

/-- The `Invalidated` branch of `apply`: `_invalidate`. -/
def applyInvalidated (ev : SemanticEvent) (t : EdgeTable) : Except PyError EdgeTable := do
  let p := ev.payload
  if !(p.get "subject_ref").truthy then return t
  let subj ← bindText (p.get "subject_ref")
  let pred ← bindText? (p.get "predicate")
  let scope ← bindText? (p.get "scope")
  let relType ← bindText? (p.get "relationship_type")
  let target : Target :=
    { subjectRef := subj, predicate := nonEmpty pred, scope := nonEmpty scope, relationshipType := relType }
  return t.deactivate target (ev.seq.getD 0)

/-- The `ContradictionRecorded` branch of `apply`. -/
def applyContradiction (ev : SemanticEvent) (t : EdgeTable) : Except PyError EdgeTable := do
  let p := ev.payload
  if !(p.get "subject_ref").truthy || !(p.get "predicate").truthy then return t
  let subj ← bindText (p.get "subject_ref")
  let pred ← bindText (p.get "predicate")
  let relType ← bindText? (p.get "relationship_type")
  t.markConflicting { subjectRef := subj, predicate := some pred, relationshipType := relType } p (ev.seq.getD 0)

/-- `ActiveSemanticEdgeProjectionBuilder.apply`. -/
def applyEdge (d : Driver) (ev : SemanticEvent) (t : EdgeTable) : Except PyError EdgeTable :=
  match ev.eventType with
  | .SemanticAsserted => applyAsserted d ev t
  | .OverrideApplied => applyOverride d ev t
  | .CorrectionApplied => applyOverride d ev t
  | .Invalidated => applyInvalidated ev t
  | .ContradictionRecorded => applyContradiction ev t
  | _ => .ok t

/-- `EDGE_PROJECTION_NAME`. -/
def edgeProjection : String := "semantic_edges"

/-- `ActiveSemanticEdgeProjectionBuilder`. -/
def edgeBuilder : Builder EdgeTable where
  projectionName := edgeProjection
  poisonEnabled := false
  prepare := fun _ t => .ok t
  wipe := fun _ _ => .ok []
  apply := applyEdge
  onSkip := fun _ _ t => .ok t
  onPause := fun _ _ t => .ok t
  finalize := fun _ t => .ok t

end Umd.Projections
