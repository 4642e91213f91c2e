import Umd.Lib.Paging
import Umd.Lib.Python
import Umd.Lib.Uuid
import Umd.Projections.Edges
import Umd.Storage.Reducer
/-!
# Structured queries

The statements behind `QueryService.structured` other than those for entities and
traversals: their tables, their conditions, and what a row is mapped to. A statement
without an order may be answered in any (`PagesExact`).
-/

namespace Umd.Query

open Umd.Lib Umd.Events Umd.Reducer Umd.Projections

/-- The fields of `StructuredQuery` that these operations read. -/
structure StructuredQuery where
  kind : String
  filters : List (String × String) := []
  confidenceMin : Option ℚ := none
  continuityId : Option String := none
  temporalFrom : Option String := none
  temporalTo : Option String := none
  spatial : Dict := []
  resultKind : Option String := none
  maxDepth : ℤ := 2
  limit : ℕ := 50
  offset : ℕ := 0

/-- A filter that is given and not empty. -/
def StructuredQuery.filter (q : StructuredQuery) (k : String) : Option String := (q.filters.lookup k).filter (· ≠ "")

structure QueryResultHit where
  ref : String
  kind : String
  label : String
  predicate : Option String := none
  value : Option String := none
  score : Json := .null
  confidence : Json := .null
  sourceId : Option String := none
  segmentId : Option String := none
  provenance : Dict := []
  generatedBy : Dict := []
  capabilities : Dict := []
  data : Dict := []

structure BoundedReport where
  depthUsed : ℤ := 0
  maxDepthCap : ℤ := 1
  bounded : Bool := true
  note : String := "v1 bounded-depth enumeration; no arbitrary-depth graph algorithms"

structure ProvenanceBearingPage where
  query : String
  results : List QueryResultHit
  total : ℕ
  limit : ℕ
  offset : ℕ
  resultKinds : List String
  provenance : Dict := []
  boundReport : BoundedReport := {}

def sourceEvidence : String := "SOURCE_EVIDENCE"

def interpretation : String := "INTERPRETATION"

/-! ## The tables -/

/-- A timestamp, in microseconds. -/
abbrev Timestamp := ℤ

structure SegmentRow where
  id : String
  sourceId : String
  segmentType : String
  locator : Option String
  ordinal : Option ℤ
  startTime : Option Timestamp
  endTime : Option Timestamp
  metadata : Dict

structure EvidenceRow where
  id : String
  sourceId : String
  segmentId : Option String
  evidenceKind : String
  locator : Option String
  confidence : Json

structure AlignmentRow where
  id : String
  leftRef : String
  rightRef : String
  alignmentType : String
  method : Option String
  confidence : Json

structure MentionRow where
  id : String
  entityId : Option String
  sourceId : String
  segmentId : Option String
  mentionText : String
  createdAt : Timestamp

structure SourceRow where
  id : String
  continuityId : Option UuidValue

structure SemanticEventRow where
  eventType : EventType
  payload : Dict

/-- What the statements read, each table with its primary key. -/
structure Tables where
  states : List ScalarRow
  segments : List SegmentRow
  evidence : List EvidenceRow
  alignments : List AlignmentRow
  mentions : List MentionRow
  edges : EdgeTable
  sources : List SourceRow
  events : List SemanticEventRow
  stateKeys : (states.map fun r => (r.entityRef, r.predicate)).Nodup
  segmentIds : (segments.map (·.id)).Nodup
  evidenceIds : (evidence.map (·.id)).Nodup
  alignmentIds : (alignments.map (·.id)).Nodup
  mentionIds : (mentions.map (·.id)).Nodup
  factIds : (edges.map (·.factId)).Nodup

/-- Functions of PostgreSQL and of Python that the conditions use. -/
structure Functions where
  /-- `~*`, for a pattern that is valid. -/
  regex : String → Option (String → Bool)
  /-- `@>` of JSONB. -/
  contains : Json → Json → Bool
  /-- The cast of a text to a timestamp. -/
  timestamp : String → Option Timestamp
  /-- `_parse_dt`. -/
  parseDt : String → Option Timestamp

/-! ## Statements -/

/-- A condition on a row; its evaluation may fail. -/
abbrev Cond (Row : Type) := Row → Except PyError Bool

variable {Row : Type}

/-- A condition that does not fail. -/
def test (p : Row → Bool) : Cond Row := fun r => .ok (p r)

/-- A statement and what is made of its rows. -/
structure Statement (Row : Type) where
  table : List Row
  conds : List (Cond Row)
  /-- The orders that `ORDER BY` allows. -/
  ordered : List Row → Prop := fun _ => True
  mapper : Row → Except PyError QueryResultHit
  /-- The page, from the count of the matching rows and the results. -/
  page : StructuredQuery → ℕ → List QueryResultHit → ProvenanceBearingPage

namespace Statement

/-- The rows of a table that meet the conditions, which are evaluated from the left. -/
def select (conds : List (Cond Row)) : List Row → Except PyError (List Row)
  | [] => .ok []
  | r :: rows => do
    let keep ← conds.allM fun c => c r
    let rest ← select conds rows
    return if keep then r :: rest else rest

def matching (s : Statement Row) : Except PyError (List Row) := select s.conds s.table

/-- An answer of the database to the statement without its window. -/
def Answers (s : Statement Row) (rows answer : List Row) : Prop := answer.Perm rows ∧ s.ordered answer

/-- A call, where `answer` is what the database makes its window of. -/
def run (s : Statement Row) (q : StructuredQuery) (answer : List Row) : Except PyError ProvenanceBearingPage := do
  let rows ← s.matching
  let results ← ((answer.drop q.offset).take q.limit).mapM s.mapper
  return s.page q rows.length results

/-- Whatever the orders of the answers, the pages at the multiples of the limit hold every matching row once, and each has the
number of them for its total. -/
def PagesExact (s : Statement Row) (q : StructuredQuery) (rows : List Row) : Prop :=
  ∀ answers : ℕ → List Row, (∀ k, s.Answers rows (answers k)) → ∃ pages : ℕ → ProvenanceBearingPage,
    (∀ k, s.run { q with offset := k * q.limit } (answers k) = .ok (pages k)) ∧ (∀ k, (pages k).total = rows.length) ∧
      ∃ hits, rows.mapM s.mapper = .ok hits ∧ ReturnsOnce (fun k => (pages k).results) hits

end Statement

/-- The page of `_run`. -/
def pageOf (kinds : List String) (q : StructuredQuery) (count : ℕ) (results : List QueryResultHit) : ProvenanceBearingPage where
  query := q.kind
  results := results.take q.limit
  total := count
  limit := q.limit
  offset := q.offset
  resultKinds := kinds
  provenance := [("authority", .str "postgres typed relational projection")]

/-! ## Scopes -/

def given (o : Option String) : Bool := o.any (· ≠ "")

/-- `_scope`: what the operation can map. -/
def scope (q : StructuredQuery) (continuity temporal spatial : Bool) : Except PyError Unit :=
  if given q.continuityId && !continuity then .error .valueError
  else if (given q.temporalFrom || given q.temporalTo) && !temporal then .error .valueError
  else if q.spatial ≠ [] ∧ !spatial then .error .valueError
  else .ok ()

/-- `_continuity_pred`. -/
def continuityPred (sources : List SourceRow) (sourceId : Row → String) (q : StructuredQuery) : Except PyError (List (Cond Row)) :=
  match q.continuityId.filter (· ≠ "") with
  | none => .ok []
  | some text =>
    match pyUuid text with
    | none => .error .valueError
    | some cid => .ok [test fun r => sources.any fun s => s.continuityId = some cid && s.id = sourceId r]

/-- An optional bound of a time range; a text that is none is refused. -/
def bound (f : Functions) (text : Option String) : Except PyError (Option Timestamp) :=
  match text.filter (· ≠ "") with
  | none => .ok none
  | some s =>
    match f.parseDt s with
    | none => .error .valueError
    | some t => .ok (some t)

/-- `_temporal_pred`: the ranges overlap. -/
def temporalPred (f : Functions) (rangeFrom rangeTo : Row → Option Timestamp) (q : StructuredQuery) :
    Except PyError (List (Cond Row)) := do
  let start ← bound f q.temporalFrom
  let stop ← bound f q.temporalTo
  return (start.map fun t => test fun r => (rangeTo r).any (t ≤ ·)).toList ++
    (stop.map fun t => test fun r => (rangeFrom r).any (· ≤ t)).toList

/-- `_spatial_pred`. -/
def spatialPred (f : Functions) (spatial : Row → Dict) (q : StructuredQuery) : List (Cond Row) :=
  if q.spatial = [] then [] else [test fun r => f.contains (.obj (spatial r)) (.obj [("spatial", .obj q.spatial)])]

/-- A filter on a UUID column. -/
def uuidFilter (column : Row → String) (text : Option String) : Except PyError (List (Cond Row)) :=
  match text with
  | none => .ok []
  | some s =>
    match pgUuid s with
    | none => .error .valueError
    | some u => .ok [test fun r => column r = u.dashed]

/-- A filter by a pattern on a column that may be `NULL`. -/
def regexFilter (f : Functions) (column : Row → Option String) (text : Option String) : Except PyError (List (Cond Row)) :=
  match text with
  | none => .ok []
  | some s =>
    match f.regex s with
    | none => .error .valueError
    | some matches' => .ok [test fun r => (column r).any matches']

/-- A filter of equality on a text column. -/
def textFilter (column : Row → Option String) (text : Option String) : List (Cond Row) :=
  (text.map fun s => test fun r => column r = some s).toList

/-- `column >= confidence_min`, for the number in the column; PostgreSQL takes NaN for the greatest. -/
def atLeast (least : ℚ) : Json → Bool
  | .num (.dec m e) => least ≤ m / 10 ^ e
  | .num .inf => true
  | .num .nan => true
  | _ => false

def confidencePred (column : Row → Json) (q : StructuredQuery) : List (Cond Row) :=
  (q.confidenceMin.map fun least => test fun r => atLeast least (column r)).toList

/-! ## The operations -/

/-- `UTTERANCE_PREDICATES`. -/
def utterancePredicates : List String := ["SPEAKS", "SAYS", "UTTERANCE", "PRONUNCIATION"]

/-- `SCENE_SEGMENT_TYPES`. -/
def sceneSegmentTypes : List String := ["scene", "chapter", "shot", "frame", "section", "act"]

def natJson (n : ℕ) : Json := .num (.dec n 0)

def utteranceHit (r : ScalarRow) : QueryResultHit where
  ref := r.entityRef
  kind := if r.authority.isStr "USER_OVERRIDE" then interpretation else sourceEvidence
  label := "utterance"
  predicate := some r.predicate
  value := r.objectRef
  confidence := r.confidence
  data := [("seq", natJson r.seq), ("authority", r.authority)]

/-- `utterances`. -/
def utterances (db : Tables) (q : StructuredQuery) : Except PyError (Statement ScalarRow) := do
  scope q false false false
  return {
    table := db.states
    conds := test (utterancePredicates.contains ·.predicate) ::
      (confidencePred (·.confidence) q ++ textFilter (some ·.entityRef) (q.filter "speaker"))
    mapper := fun r => .ok (utteranceHit r)
    page := pageOf [sourceEvidence, interpretation] }

def sceneHit (r : SegmentRow) : QueryResultHit where
  ref := r.id
  kind := sourceEvidence
  label := "scene"
  predicate := some r.segmentType
  value := r.locator
  sourceId := some r.sourceId
  data := [("ordinal", (r.ordinal.map fun n => Json.num (.dec n 0)).getD .null)]

/-- `scenes`. -/
def scenes (f : Functions) (db : Tables) (q : StructuredQuery) : Except PyError (Statement SegmentRow) := do
  scope q true true true
  let source ← uuidFilter (·.sourceId) (q.filter "source_id")
  let locator ← regexFilter f (·.locator) (q.filter "locator")
  let continuity ← continuityPred db.sources (·.sourceId) q
  let temporal ← temporalPred f (·.startTime) (·.endTime) q
  return {
    table := db.segments
    conds := test (sceneSegmentTypes.contains ·.segmentType) ::
      (source ++ locator ++ continuity ++ temporal ++ spatialPred f (·.metadata) q)
    mapper := fun r => .ok (sceneHit r)
    page := pageOf [sourceEvidence] }

def evidenceHit (r : EvidenceRow) : QueryResultHit where
  ref := r.id
  kind := sourceEvidence
  label := "evidence"
  predicate := some r.evidenceKind
  value := r.locator
  sourceId := some r.sourceId
  segmentId := r.segmentId
  confidence := r.confidence
  provenance := [("source_id", .str r.sourceId), ("segment_id", Json.ofStr? r.segmentId), ("locator", Json.ofStr? r.locator)]
  capabilities := [("evidence_kind", .str r.evidenceKind)]

/-- `evidence`. -/
def evidence (f : Functions) (db : Tables) (q : StructuredQuery) : Except PyError (Statement EvidenceRow) := do
  scope q true false false
  let locator ← regexFilter f (·.locator) (q.filter "locator")
  let source ← uuidFilter (·.sourceId) (q.filter "source_id")
  let continuity ← continuityPred db.sources (·.sourceId) q
  return {
    table := db.evidence
    conds := locator ++ textFilter (some ·.evidenceKind) (q.filter "evidence_kind") ++ source ++ continuity
    mapper := fun r => .ok (evidenceHit r)
    page := pageOf [sourceEvidence] }

def correspondenceHit (r : AlignmentRow) : QueryResultHit where
  ref := r.id
  kind := sourceEvidence
  label := "correspondence"
  predicate := some r.alignmentType
  value := some (r.leftRef ++ " <-> " ++ r.rightRef)
  confidence := r.confidence
  data := [("left_ref", .str r.leftRef), ("right_ref", .str r.rightRef), ("method", Json.ofStr? r.method)]

/-- `correspondence`. -/
def correspondence (db : Tables) (q : StructuredQuery) : Except PyError (Statement AlignmentRow) := do
  scope q false false false
  return {
    table := db.alignments
    conds := confidencePred (·.confidence) q ++ textFilter (some ·.alignmentType) (q.filter "type") ++
      ((q.filter "entity").map fun ref => test fun r : AlignmentRow => r.leftRef = ref || r.rightRef = ref).toList
    mapper := fun r => .ok (correspondenceHit r)
    page := pageOf [sourceEvidence] }

/-- `contradictions`. The mapper reads `r.state`, which is none of the selected columns. -/
def contradictions (db : Tables) (q : StructuredQuery) : Except PyError (Statement ScalarRow) := do
  scope q false false false
  return {
    table := db.states
    conds := test (·.state.isStr "CONFLICTING") ::
      (q.confidenceMin.map fun least => test fun r : ScalarRow => atLeast least r.confidence || r.confidence.isNone).toList
    mapper := fun _ => .error .attributeError
    page := pageOf [interpretation] }

/-- `->>` of JSONB. -/
def astext : Json → Option String
  | .null => none
  | .str s => some s
  | j => some (dumps j)

/-- `id_expr` of `_resolved_mention_ids`. -/
def resolvedId (e : SemanticEventRow) : Option String :=
  match e.eventType with
  | .EntityMentioned => if (astext (e.payload.get "entity_id")).isSome then astext (e.payload.get "mention_id") else none
  | .EntityResolved => if astext (e.payload.get "kind") = some "ALIAS" then astext (e.payload.get "entity_id") else none
  | _ => none

/-- `_resolved_mention_ids`. -/
def resolvedMentionIds (db : Tables) : List String :=
  (db.events.filterMap resolvedId).filter fun id => db.mentions.any fun m => m.id = id

def unresolvedHit (r : MentionRow) : QueryResultHit where
  ref := r.id
  kind := interpretation
  label := "unresolved alias"
  value := some r.mentionText
  sourceId := some r.sourceId
  segmentId := r.segmentId
  data := [("unresolved", .bool true)]

/-- The page of `unresolved_aliases`: its total is the number of its results. -/
def unresolvedPage (q : StructuredQuery) (_count : ℕ) (results : List QueryResultHit) : ProvenanceBearingPage where
  query := "UNRESOLVED_ALIASES"
  results := results
  total := results.length
  limit := q.limit
  offset := q.offset
  resultKinds := [interpretation]
  provenance := [("authority", .str "entity_mention projection")]
  boundReport := { maxDepthCap := q.maxDepth }

/-- `unresolved_aliases`. -/
def unresolvedAliases (db : Tables) (q : StructuredQuery) : Except PyError (Statement MentionRow) := do
  scope q true false false
  let source ← uuidFilter (·.sourceId) (q.filter "source_id")
  let continuity ← continuityPred db.sources (·.sourceId) q
  return {
    table := db.mentions
    conds := [test (·.entityId.isNone), test fun r => !(resolvedMentionIds db).contains r.id] ++ source ++ continuity
    ordered := fun answer => answer.Pairwise fun r r' => r'.createdAt ≤ r.createdAt
    mapper := fun r => .ok (unresolvedHit r)
    page := unresolvedPage }

/-- `_derivation_type`. -/
def derivationType (r : EdgeRow) : Json :=
  match r.derivation.get "relationship_type" with
  | .str s => if s = "" then .null else .str s
  | _ => .null

def edgeHit (r : EdgeRow) : QueryResultHit where
  ref := r.subjectRef
  kind := if r.authority.isStr "USER_OVERRIDE" then interpretation else sourceEvidence
  label := "relationship edge"
  predicate := some r.predicate
  value := r.objectRef
  confidence := r.confidence
  provenance := [("fact_id", .str r.factId), ("state", r.state), ("scope", r.scope), ("seq", natJson r.ledgerSeq)]
  capabilities := [("edge", .bool true), ("relationship_type", derivationType r)]
  data := [("authority", r.authority), ("state", r.state), ("scope", r.scope), ("relationship_type", derivationType r)]

/-- An end of the narrative time of an edge; the cast of a text that is no timestamp fails. -/
def narrativeTime (f : Functions) (key : String) (r : EdgeRow) : Except PyError (Option Timestamp) :=
  let narrative := match r.derivation.get "narrative_time" with
    | .obj d => astext (Dict.get d key)
    | _ => none
  match narrative with
  | none => .ok none
  | some s =>
    match f.timestamp s with
    | none => .error .valueError
    | some t => .ok (some t)

/-- `_edge_temporal_pred`. -/
def edgeTemporalPred (f : Functions) (q : StructuredQuery) : Except PyError (List (Cond EdgeRow)) := do
  let start ← bound f q.temporalFrom
  let stop ← bound f q.temporalTo
  return (start.map fun t => fun r => (narrativeTime f "to" r).map fun o => o.any (t ≤ ·)).toList ++
    (stop.map fun t => fun r => (narrativeTime f "from" r).map fun o => o.any (· ≤ t)).toList

/-- `relationship_edges`. -/
def relationshipEdges (f : Functions) (db : Tables) (q : StructuredQuery) : Except PyError (Statement EdgeRow) := do
  scope q false true true
  let temporal ← edgeTemporalPred f q
  return {
    table := db.edges
    conds := test (·.active) ::
      (confidencePred (·.confidence) q ++ textFilter (some ·.subjectRef) (q.filter "subject") ++
        ((q.filter "ref").map fun ref => test fun r : EdgeRow => r.subjectRef = ref || r.objectRef = some ref).toList ++
        textFilter (some ·.predicate) (q.filter "predicate") ++ textFilter (·.objectRef) (q.filter "object") ++
        textFilter (astext ·.scope) (q.filter "scope") ++
        textFilter (fun r => astext (r.derivation.get "relationship_type")) (q.filter "relationship_type") ++
        temporal ++ spatialPred f (·.derivation) q ++
        (if q.resultKind = some sourceEvidence then [test fun r => !r.authority.isNone && !r.authority.isStr "USER_OVERRIDE"]
          else if q.resultKind = some interpretation then [test (·.authority.isStr "USER_OVERRIDE")] else []))
    mapper := fun r => .ok (edgeHit r)
    page := pageOf [sourceEvidence, interpretation] }

/-! ## Pages -/

namespace Statement

theorem select_sublist {conds : List (Cond Row)} {table rows : List Row} (h : select conds table = .ok rows) : rows.Sublist table := by
  induction table generalizing rows with
  | nil =>
    cases h
    exact .slnil
  | cons r table ih =>
    unfold select at h
    cases hkeep : conds.allM (fun c => c r) with
    | error e => rw [hkeep] at h; cases h
    | ok keep =>
      cases hrest : select conds table with
      | error e => rw [hkeep, hrest] at h; cases h
      | ok rest =>
        rw [hkeep, hrest] at h
        cases h
        split
        · exact (ih hrest).cons_cons r
        · exact (ih hrest).cons r

theorem mapM_total {s : Statement Row} {hit : Row → QueryResultHit} (h : ∀ r, s.mapper r = .ok (hit r)) (rows : List Row) :
    rows.mapM s.mapper = .ok (rows.map hit) := by
  induction rows with
  | nil => rfl
  | cons r rows ih =>
    rw [List.mapM_cons, h, ih]
    rfl

theorem run_total {s : Statement Row} {hit : Row → QueryResultHit} (h : ∀ r, s.mapper r = .ok (hit r)) {rows : List Row}
    (hrows : s.matching = .ok rows) (q : StructuredQuery) (k : ℕ) (answer : List Row) :
    s.run { q with offset := k * q.limit } answer =
      .ok (s.page { q with offset := k * q.limit } rows.length ((window q.limit k answer).map hit)) := by
  unfold run
  rw [hrows]
  dsimp only [bind, Except.bind]
  rw [mapM_total h]
  rfl

/-- Pages of a statement without an order are exact if and only if the matching rows fit on one. -/
theorem exact_iff {s : Statement Row} {hit : Row → QueryResultHit} {kinds : List String} (hmapper : ∀ r, s.mapper r = .ok (hit r))
    (hpage : s.page = pageOf kinds) (hordered : ∀ answer, s.ordered answer) (hnodup : (s.table.map hit).Nodup)
    {rows : List Row} (hrows : s.matching = .ok rows) (q : StructuredQuery) : s.PagesExact q rows ↔ rows.length ≤ q.limit := by
  rw [← returnsOnce_unordered_iff hit (hnodup.sublist ((select_sublist hrows).map hit))]
  have hresults : ∀ k answer, (s.page { q with offset := k * q.limit } rows.length ((window q.limit k answer).map hit)).results =
      (window q.limit k answer).map hit := by
    intro k answer
    rw [hpage]
    apply List.take_of_length_le
    rw [List.length_map]
    exact List.length_take_le ..
  constructor
  · intro h answers hanswers
    obtain ⟨pages, hruns, -, hits, hhits, hreturns⟩ := h answers fun k => ⟨hanswers k, hordered _⟩
    rw [mapM_total hmapper] at hhits
    cases hhits
    have hpages : (fun k => (window q.limit k (answers k)).map hit) = fun k => (pages k).results := by
      funext k
      have hrun := hruns k
      rw [run_total hmapper hrows] at hrun
      rw [← Except.ok.inj hrun, hresults]
    rw [hpages]
    exact hreturns
  · intro h answers hanswers
    refine ⟨fun k => _, fun k => run_total hmapper hrows q k (answers k), fun k => ?_, _, mapM_total hmapper rows, ?_⟩
    · dsimp only
      rw [hpage]
      rfl
    · dsimp only
      simp only [hresults]
      exact h answers fun k => (hanswers k).1

end Statement

theorem nodup_hits {hit : Row → QueryResultHit} {κ : Type} {key : Row → κ} (keyOf : QueryResultHit → κ) {table : List Row}
    (hkey : ∀ r, keyOf (hit r) = key r) (h : (table.map key).Nodup) : (table.map hit).Nodup := by
  apply List.Nodup.of_map keyOf
  rw [List.map_map]
  have hcomp : keyOf ∘ hit = key := funext hkey
  rw [hcomp]
  exact h

/-- The order of `created_at`, the newest first. -/
theorem exists_newest_first (rows : List MentionRow) : ∃ answer : List MentionRow, answer.Perm rows ∧
    answer.Pairwise fun r r' => r'.createdAt ≤ r.createdAt := by
  refine ⟨rows.insertionSort fun r r' => r'.createdAt ≤ r.createdAt, List.perm_insertionSort .., ?_⟩
  have htotal : Std.Total fun r r' : MentionRow => r'.createdAt ≤ r.createdAt := ⟨fun r r' => le_total ..⟩
  have htrans : IsTrans MentionRow fun r r' => r'.createdAt ≤ r.createdAt := ⟨fun _ _ _ h h' => le_trans h' h⟩
  exact List.pairwise_insertionSort ..

/-- For every run of an operation whose statement is accepted, its pages are exact if and only if `fits` the matching rows. -/
def ExactIff (q : StructuredQuery) (operation : Except PyError (Statement Row)) (fits : List Row → Prop) : Prop :=
  ∀ s rows, operation = .ok s → s.matching = .ok rows → (s.PagesExact q rows ↔ fits rows)

section Operations

variable (f : Functions) (db : Tables) (q : StructuredQuery)

theorem utterances_exact_iff : ExactIff q (utterances db q) fun rows => rows.length ≤ q.limit := by
  intro s rows hs hrows
  obtain ⟨-, -, hs⟩ := bind_ok hs
  cases hs
  exact Statement.exact_iff (fun _ => rfl) rfl (fun _ => trivial)
    (nodup_hits (fun h => (h.ref, h.predicate.getD "")) (fun _ => rfl) db.stateKeys) hrows q

theorem scenes_exact_iff : ExactIff q (scenes f db q) fun rows => rows.length ≤ q.limit := by
  intro s rows hs hrows
  obtain ⟨-, -, hs⟩ := bind_ok hs
  obtain ⟨source, -, hs⟩ := bind_ok hs
  obtain ⟨locator, -, hs⟩ := bind_ok hs
  obtain ⟨continuity, -, hs⟩ := bind_ok hs
  obtain ⟨temporal, -, hs⟩ := bind_ok hs
  cases hs
  exact Statement.exact_iff (fun _ => rfl) rfl (fun _ => trivial) (nodup_hits (·.ref) (fun _ => rfl) db.segmentIds) hrows q

theorem evidence_exact_iff : ExactIff q (evidence f db q) fun rows => rows.length ≤ q.limit := by
  intro s rows hs hrows
  obtain ⟨-, -, hs⟩ := bind_ok hs
  obtain ⟨locator, -, hs⟩ := bind_ok hs
  obtain ⟨source, -, hs⟩ := bind_ok hs
  obtain ⟨continuity, -, hs⟩ := bind_ok hs
  cases hs
  exact Statement.exact_iff (fun _ => rfl) rfl (fun _ => trivial) (nodup_hits (·.ref) (fun _ => rfl) db.evidenceIds) hrows q

theorem correspondence_exact_iff : ExactIff q (correspondence db q) fun rows => rows.length ≤ q.limit := by
  intro s rows hs hrows
  obtain ⟨-, -, hs⟩ := bind_ok hs
  cases hs
  exact Statement.exact_iff (fun _ => rfl) rfl (fun _ => trivial) (nodup_hits (·.ref) (fun _ => rfl) db.alignmentIds) hrows q

theorem relationshipEdges_exact_iff : ExactIff q (relationshipEdges f db q) fun rows => rows.length ≤ q.limit := by
  intro s rows hs hrows
  obtain ⟨-, -, hs⟩ := bind_ok hs
  obtain ⟨temporal, -, hs⟩ := bind_ok hs
  cases hs
  exact Statement.exact_iff (fun _ => rfl) rfl (fun _ => trivial)
    (nodup_hits (fun h => (h.provenance.get "fact_id").str?.getD "") (fun _ => rfl) db.factIds) hrows q

/-- The mapper fails, so only a query without matching rows has pages. -/
theorem contradictions_exact_iff : ExactIff q (contradictions db q) fun rows => rows = [] := by
  intro s rows hs hrows
  obtain ⟨-, -, hs⟩ := bind_ok hs
  cases hs
  constructor
  · intro h
    obtain ⟨-, -, -, hits, hhits, -⟩ := h (fun _ => rows) fun _ => ⟨.refl _, trivial⟩
    cases rows with
    | nil => rfl
    | cons r rows => rw [List.mapM_cons] at hhits; cases hhits
  · rintro rfl answers hanswers
    have hempty : ∀ k, answers k = [] := fun k => List.perm_nil.1 (hanswers k).1
    refine ⟨fun k => pageOf [interpretation] { q with offset := k * q.limit } 0 [], fun k => ?_, fun _ => rfl, [], rfl, 0, fun m _ => ?_⟩
    · rw [hempty k, Statement.run, hrows, List.drop_nil, List.take_nil]
      rfl
    · rw [walk, List.flatMap_eq_nil_iff.2]
      intro k _
      exact List.take_nil

/-- A page after the last row has no total but zero. -/
theorem unresolvedAliases_exact_iff : ExactIff q (unresolvedAliases db q) fun rows => rows = [] := by
  intro s rows hs hrows
  obtain ⟨-, -, hs⟩ := bind_ok hs
  obtain ⟨source, -, hs⟩ := bind_ok hs
  obtain ⟨continuity, -, hs⟩ := bind_ok hs
  cases hs
  constructor
  · intro h
    obtain ⟨answer, hperm, hsorted⟩ := exists_newest_first rows
    obtain ⟨pages, hruns, htotals, -⟩ := h (fun _ => answer) fun _ => ⟨hperm, hsorted⟩
    have hpast : window q.limit rows.length answer = [] ∨ q.limit = 0 := by
      by_cases hlimit : q.limit = 0
      · exact .inr hlimit
      · refine .inl ?_
        rw [window, List.drop_eq_nil_of_le, List.take_nil]
        rw [hperm.length_eq]
        exact Nat.le_mul_of_pos_right _ (Nat.pos_of_ne_zero hlimit)
    have hnone : window q.limit rows.length answer = [] := by
      rcases hpast with h | h
      · exact h
      · rw [h, window, List.take_zero]
    have hrun := hruns rows.length
    rw [@Statement.run_total _ _ unresolvedHit (fun _ => rfl) _ hrows, hnone] at hrun
    have htotal := htotals rows.length
    rw [← Except.ok.inj hrun] at htotal
    exact List.length_eq_zero_iff.1 htotal.symm
  · rintro rfl answers hanswers
    have hempty : ∀ k, answers k = [] := fun k => List.perm_nil.1 (hanswers k).1
    refine ⟨fun k => unresolvedPage { q with offset := k * q.limit } 0 [], fun k => ?_, fun _ => rfl, [], rfl, 0, fun m _ => ?_⟩
    · rw [hempty k, Statement.run, hrows, List.drop_nil, List.take_nil]
      rfl
    · rw [walk, List.flatMap_eq_nil_iff.2]
      intro k _
      rfl

end Operations

/-- Pages by offset are exact for the statements without an order if and only if the matching rows fit on one page, and for
contradictions and unresolved aliases if and only if no row matches. -/
theorem pages_exact_iff (f : Functions) (db : Tables) (q : StructuredQuery) :
    ExactIff q (utterances db q) (fun rows => rows.length ≤ q.limit) ∧
    ExactIff q (scenes f db q) (fun rows => rows.length ≤ q.limit) ∧
    ExactIff q (evidence f db q) (fun rows => rows.length ≤ q.limit) ∧
    ExactIff q (correspondence db q) (fun rows => rows.length ≤ q.limit) ∧
    ExactIff q (relationshipEdges f db q) (fun rows => rows.length ≤ q.limit) ∧
    ExactIff q (contradictions db q) (fun rows => rows = []) ∧
    ExactIff q (unresolvedAliases db q) (fun rows => rows = []) :=
  ⟨utterances_exact_iff db q, scenes_exact_iff f db q, evidence_exact_iff f db q, correspondence_exact_iff db q,
    relationshipEdges_exact_iff f db q, contradictions_exact_iff db q, unresolvedAliases_exact_iff db q⟩

def spokenBy (speaker : String) : ScalarRow where
  entityRef := speaker
  predicate := "SPEAKS"
  objectRef := none
  confidence := .null
  authority := .null
  state := .str "CONFIRMED"
  seq := 1

def twoSpeakers : Tables where
  states := [spokenBy "canonical:anna", spokenBy "canonical:ben"]
  segments := []
  evidence := []
  alignments := []
  mentions := []
  edges := []
  sources := []
  events := []
  stateKeys := by decide
  segmentIds := .nil
  evidenceIds := .nil
  alignmentIds := .nil
  mentionIds := .nil
  factIds := .nil

/-- Two utterances on pages of one: in another order for each page, one is returned twice. -/
theorem pages_repeat : ¬ ∀ (db : Tables) (q : StructuredQuery) (s : Statement ScalarRow) (rows : List ScalarRow), 1 ≤ q.limit →
    utterances db q = .ok s → s.matching = .ok rows → s.PagesExact q rows := by
  intro hall
  let q : StructuredQuery := { kind := "UTTERANCE", limit := 1 }
  have hexact := hall twoSpeakers q _ twoSpeakers.states (le_refl 1) rfl rfl
  have hfits : twoSpeakers.states.length ≤ q.limit := (utterances_exact_iff twoSpeakers q _ _ rfl rfl).1 hexact
  exact absurd hfits (by decide)

end Umd.Query
