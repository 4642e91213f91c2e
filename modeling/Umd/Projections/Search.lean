import Mathlib.Data.List.Sort
import Umd.Projections.Edges
/-!
# The search projection

`SearchProjectionBuilder`: a mention of an entity is indexed when it is applied,
canonical entities and active edges are indexed anew whenever a run ends. The
edges are read from the store of `semantic_edges`; a run that is not paused
refuses to index them when their checkpoint trails its own position.
-/

namespace Umd.Projections

open Umd.Lib Umd.Events Umd.Reducer Umd.Ledger

/-- `RESULT_KINDS`. -/
inductive ResultKind where
  | sourceEvidence
  | interpretation
  | canonicalEntity
deriving DecidableEq

/-- A row of `search_document`; its id is a digest of the kind and the ref. -/
structure SearchDoc where
  ref : String
  kind : ResultKind
  text : String
  sourceId : Option String := none
  workId : Option String := none
  continuityId : Option String := none
  segmentId : Option String := none
  entityRef : Option String := none
  predicate : Option String := none
  seq : Nat
deriving DecidableEq

/-- The rows of `search_document`, each kind and ref once. -/
abbrev DocTable := List SearchDoc

/-- The stores of the projections; the search documents are in one table a schema. -/
structure Stores where
  current : Table := fun _ => none
  edges : EdgeTable := []
  docs : String → DocTable := fun _ => []

theorem Stores.eta (t : Stores) : Stores.mk t.current t.edges t.docs = t := rfl

/-- The constraint `uq_search_document_kind_ref`. -/
def SearchDoc.sameKey (doc doc' : SearchDoc) : Bool := doc.kind = doc'.kind && doc.ref = doc'.ref

/-- `_upsert`. -/
def DocTable.upsert (t : DocTable) (doc : SearchDoc) : DocTable :=
  if doc.ref = "" ∨ doc.text = "" then t
  else if t.any (·.sameKey doc) then t.map fun r => if r.sameKey doc then doc else r else t ++ [doc]

/-- `str(x) if x else None`. -/
def strOrNone (j : Json) : Option String := if j.truthy then some (pyStr j) else none

/-! ## Mentions -/

/-- The document of an `EntityMentioned`. -/
def mentionDoc (ev : SemanticEvent) : SearchDoc where
  ref := (strOrNone (pyOr (ev.payload.get "mention_id") (ev.payload.get "source_id"))).getD ""
  kind := .sourceEvidence
  text := (strOrNone (ev.payload.get "mention_text")).getD ""
  sourceId := strOrNone (ev.payload.get "source_id")
  segmentId := strOrNone (ev.payload.get "segment_id")
  entityRef := strOrNone (ev.payload.get "entity_id")
  seq := ev.seq.getD 0

/-! ## Canonical entities -/

/-- `hashlib.sha256(text.encode()).hexdigest()` and its first digits: the text they are taken of. -/
def shaDigits (text : String) : String := text

/-- `(source_id, work_id, continuity_id)`. -/
structure Scope where
  sourceId : Option String := none
  workId : Option String := none
  continuityId : Option String := none

/-- `_scoped_ref`. -/
def scopedRef (ref : String) (s : Scope) : String :=
  let source := s.sourceId.getD ""
  let work := s.workId.getD ""
  let continuity := s.continuityId.getD ""
  if source = "" ∧ work = "" ∧ continuity = "" then ref
  else ref ++ "::scoped::" ++ shaDigits (source ++ "\x1f" ++ work ++ "\x1f" ++ continuity)

/-- The scope of a correlated tuple of at least three. -/
def tupleScope : Json → Option Scope
  | .arr (source :: work :: continuity :: _) => some ⟨strOrNone source, strOrNone work, strOrNone continuity⟩
  | _ => none

/-- `sorted(set(xs))`, and `[None]` of no text. -/
def sortedOr (xs : List String) : List (Option String) :=
  if xs.isEmpty then [none] else (xs.dedup.insertionSort (· ≤ ·)).map some

/-- `_scope_combos`. -/
def scopeCombos (memberships : Dict) : Except PyError (List Scope) :=
  match memberships.get "tuples" with
  | .arr (t :: ts) => .ok ((t :: ts).filterMap tupleScope)
  | _ => do
    let sources := (← pyList (memberships.get "source_ids")).map pyStr
    let works := (← pyList (memberships.get "work_ids")).map pyStr
    let continuities := (← pyList (memberships.get "continuity_ids")).map pyStr
    if sources.isEmpty then return [{}]
    return (sortedOr sources).flatMap fun s => (sortedOr works).flatMap fun w => (sortedOr continuities).map fun c => ⟨s, w, c⟩

/-- The documents of a canonical identity in one of its scopes. -/
def identityDocs (ref : String) (row : CurrentStateRow) (metadata : Dict) (s : Scope) : Except PyError (List SearchDoc) := do
  let doc (base text : String) : SearchDoc :=
    { ref := scopedRef base s, kind := .canonicalEntity, text := text, sourceId := nonEmpty s.sourceId, workId := nonEmpty s.workId
      continuityId := nonEmpty s.continuityId, entityRef := nonEmpty (some ref), predicate := some canonicalIdentity
      seq := row.seq }
  let aliases ← pyList (metadata.get "aliases")
  let named := (aliases.filter Json.truthy).map fun name => doc (ref ++ "::alias::" ++ shaDigits (pyStr name)) (pyStr name)
  return doc ref ((strOrNone (metadata.get "display_label")).getD "") :: named

/-- `meta.get("memberships") or {}`, and nothing of what is no dictionary. -/
def scopeMemberships (metadata : Dict) : Dict :=
  match metadata.get "memberships" with
  | .obj d => d
  | _ => []

/-- `_index_canonical_identity`. -/
def indexCanonicalIdentity (ref : String) (row : CurrentStateRow) : Except PyError (List SearchDoc) := do
  let metadata := parseMetadata row.objectRef
  let docs ← (← scopeCombos (scopeMemberships metadata)).mapM (identityDocs ref row metadata)
  return docs.flatten

/-- The documents of a row of the state; one without identity metadata only where no identity row is there. -/
def canonicalDocs (s : CurrentReducedState) (item : Key × CurrentStateRow) : Except PyError (List SearchDoc) :=
  let ((ref, predicate), row) := item
  match nonEmpty row.objectRef with
  | none => .ok []
  | some object =>
    if predicate = canonicalIdentity then indexCanonicalIdentity ref row
    else if predicate = "CANONICAL_ENTITY" && (s.rows (ref, canonicalIdentity)).isNone then
      .ok [{ ref := ref, kind := .canonicalEntity, text := object, entityRef := nonEmpty (some ref)
             predicate := some predicate, seq := row.seq }]
    else .ok []

/-! ## Active edges -/

/-- `str.isspace` of one character. -/
def isSpace (c : Char) : Bool :=
  let n := c.toNat
  (9 ≤ n && n ≤ 13) || (28 ≤ n && n ≤ 32) || n = 0x85 || n = 0xa0 || n = 0x1680 || (0x2000 ≤ n && n ≤ 0x200a) ||
    n = 0x2028 || n = 0x2029 || n = 0x202f || n = 0x205f || n = 0x3000

/-- `str.strip` -/
def strip (s : String) : String :=
  String.ofList ((s.toList.dropWhile isSpace).reverse.dropWhile isSpace).reverse

/-- `_UTTERANCE_PREDICATES`. -/
def utterancePredicates : List String := ["SPEAKS", "SAYS", "UTTERANCE", "PRONUNCIATION"]

/-- `_EDGE_DOC_PREFIX`. -/
def edgeDocPrefix : String := "edge:"

/-- `_ASSERT_DOC_PREFIX`. -/
def assertDocPrefix : String := "assert:"

/-- `ref LIKE 'edge:%'` or `ref LIKE 'assert:%'`. -/
def isEdgeRef (ref : String) : Bool :=
  edgeDocPrefix.toList.isPrefixOf ref.toList || assertDocPrefix.toList.isPrefixOf ref.toList

/-- The text of an edge: its object, unless that is blank, and else its subject. -/
def edgeText (r : EdgeRow) : String := (r.objectRef.filter fun o => o.toList.any fun c => !isSpace c).getD r.subjectRef

def edgeDoc (r : EdgeRow) : SearchDoc where
  ref := (if utterancePredicates.contains r.predicate then assertDocPrefix else edgeDocPrefix) ++ r.factId
  kind := .interpretation
  text := edgeText r
  entityRef := nonEmpty (some r.subjectRef)
  predicate := some r.predicate
  seq := r.ledgerSeq

/-- The documents of the active edges. -/
def activeDocs (edges : EdgeTable) : List SearchDoc := (edges.filter (·.active)).map edgeDoc

/-- The gate of `_index_active_edges`: the edges trail the search run. -/
def edgesTrail (edgeCp : Option ProjectionCheckpoint) (d : Driver) : Bool :=
  !d.paused && edgeCp.any fun cp => cp.appliedSeq < d.appliedSeq

/-- `_index_active_edges`. -/
def indexActiveEdges (edgeCp : Option ProjectionCheckpoint) (d : Driver) (edges : EdgeTable) (t : DocTable) :
    Except PyError DocTable :=
  if edgesTrail edgeCp d then .error .runtimeError
  else .ok ((activeDocs edges).foldl DocTable.upsert (t.filter fun doc => !isEdgeRef doc.ref))

/-! ## The builder -/

/-- `projection_name`. -/
def searchProjection : String := "search"

section
variable (listed : CurrentReducedState → List Key)

/-- `state.rows.items()`, in the order the dictionary lists its keys. -/
def rowItems (s : CurrentReducedState) : List (Key × CurrentStateRow) :=
  (listed s).filterMap fun k => (s.rows k).map (k, ·)

/-- `finalize`. -/
def finalizeSearch (edgeCp : Option ProjectionCheckpoint) (d : Driver) (edges : EdgeTable) (t : DocTable) :
    Except PyError DocTable := do
  let docs ← (rowItems listed d.state).mapM (canonicalDocs d.state)
  let t := t.filter fun doc => doc.kind ≠ .canonicalEntity
  indexActiveEdges edgeCp d edges (docs.flatten.foldl DocTable.upsert t)

/-- `apply`. -/
def applySearch (ev : SemanticEvent) (t : DocTable) : DocTable :=
  if ev.eventType = .EntityMentioned then t.upsert (mentionDoc ev) else t

/-- The documents of a schema replaced. -/
def Stores.setDocs (t : Stores) (schema : String) (docs : DocTable) : Stores := { t with docs := upd t.docs schema docs }

/-- `SearchProjectionBuilder(schema)`, where `listed` is the order in which a state's dictionary lists its keys and
`edgeCp` is the edge checkpoint that `finalize` reads. -/
def searchBuilder (schema : String) (edgeCp : Option ProjectionCheckpoint) : Builder Stores where
  projectionName := searchProjection
  prepare := fun _ t => .ok t
  wipe := fun _ t => .ok (t.setDocs schema [])
  apply := fun _ ev t => .ok (t.setDocs schema (applySearch ev (t.docs schema)))
  onSkip := fun _ _ t => .ok t
  onPause := fun _ _ t => .ok t
  finalize := fun d t => (finalizeSearch listed edgeCp d t.edges (t.docs schema)).map (t.setDocs schema)

end

end Umd.Projections
