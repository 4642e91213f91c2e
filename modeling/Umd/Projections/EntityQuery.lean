import Umd.Projections.Query
import Umd.Projections.Search
/-!
# Entity queries

`QueryService.entities`: by display label, by alias, and in general. A membership scope
is tested twice, by the statement on the JSON of a row and by `_in_membership_scope` on
what it reads back.
-/

namespace Umd.Query

open Umd.Lib Umd.Events Umd.Reducer Umd.Projections

/-- A row of `current_entity_map`. -/
structure EntityMapRow where
  entityId : String
  aliasText : String
  canonicalEntityId : String

/-- The tables of entity queries. -/
structure EntityTables where
  states : List ScalarRow
  entityMap : List EntityMapRow
  events : List SemanticEventRow
  stateKeys : (states.map fun r => (r.entityRef, r.predicate)).Nodup

/-- The order in which the database lists rows for a call, where the statement leaves it open. -/
structure Listing where
  list : List ScalarRow → List ScalarRow
  perm : ∀ rows, (list rows).Perm rows

/-! ## Membership scopes -/

/-- The requested value of each key of memberships that is restricted. -/
abbrev Scope := List (String × String)

/-- `dashed_uuid`. -/
def dashedUuid (value : String) : String := ((pyUuid (strip value)).map UuidValue.dashed).getD (strip value)

/-- The value of a filter for a UUID. -/
def uuidScope (key : String) : Option String → Except PyError Scope
  | none => .ok []
  | some text => if (pyUuid text).isSome then .ok [(key, text)] else .error .valueError

/-- `_membership_scope`. -/
def membershipScope (q : StructuredQuery) : Except PyError Scope := do
  let work ← uuidScope "work_ids" (q.filters.lookup "work_id")
  let source := ((q.filters.lookup "source_id").map fun s => ("source_ids", dashedUuid s)).toList
  let continuity ← uuidScope "continuity_ids" (q.filters.lookup "continuity_id")
  return work ++ source ++ continuity

/-- The place of a key in a correlated tuple. -/
def dimension (key : String) : ℕ := if key = "source_ids" then 0 else if key = "work_ids" then 1 else 2

/-- `_tuple_in_scope`. -/
def tupleInScope (sc : Scope) : Json → Bool
  | .arr xs => 3 ≤ xs.length && sc.all fun f =>
    match xs[dimension f.1]? with
    | none => false
    | some .null => false
    | some v => pyStr v = f.2
  | _ => false

/-- `_in_membership_scope`. -/
def inMembershipScope (sc : Scope) (r : ScalarRow) : Except PyError Bool :=
  if sc = [] then .ok true
  else
    let memberships := match (parseMetadata r.objectRef).get "memberships" with
      | .obj d => d
      | _ => []
    match Dict.get memberships "tuples" with
    | .arr (t :: ts) => .ok ((t :: ts).any (tupleInScope sc))
    | _ => sc.allM fun f => (pyList (Dict.get memberships f.1)).map fun owned => (owned.map pyStr).contains f.2

/-- `->` of JSONB with a key; the structure may be another. -/
def arrow : Json → String → Option Json
  | .obj d, k => Dict.get? d k
  | _, _ => none

/-- `->` of JSONB with an index. -/
def arrowAt : Json → ℕ → Option Json
  | .arr xs, i => xs[i]?
  | _, _ => none

/-- `?` of JSONB: a key, or a text among the elements. -/
def existsKey : Json → String → Bool
  | .obj d, k => (Dict.get? d k).isSome
  | .arr xs, k => xs.any (·.isStr k)
  | .str s, k => s = k
  | _, _ => false

/-- `_tuple_scope_pred`: `jsonb_array_elements` fails for what is no array. -/
def tupleScopePred (sc : Scope) (memberships : Json) : Except PyError Bool :=
  match arrow memberships "tuples" with
  | none => .ok false
  | some (.arr ts) => .ok (ts.any fun t => sc.all fun f => (arrowAt t (dimension f.1)).bind astext = some f.2)
  | some _ => .error .valueError

/-- `_membership_scope_pred`, for the row's text cast to JSONB. -/
def membershipScopePred (sc : Scope) (r : ScalarRow) : Except PyError Bool :=
  if sc = [] then .ok true
  else
    match r.objectRef with
    | none => .ok false
    | some text =>
      match loads text with
      | none => .error .valueError
      | some body =>
        match arrow body "memberships" with
        | none => .ok false
        | some memberships =>
          if existsKey memberships "tuples" then tupleScopePred sc memberships
          else .ok (sc.all fun f => (arrow memberships f.1).any (existsKey · f.2))

/-! ## Statements -/

/-- `base`: active rows of the confidence and the ref. -/
def base (q : StructuredQuery) : List (Cond ScalarRow) :=
  [test (·.objectRef.isSome), test fun r => !r.state.isStr "INVALIDATED"] ++ confidencePred (·.confidence) q ++
    textFilter (some ·.entityRef) (q.filter "ref")

def isIdentity (r : ScalarRow) : Bool := r.predicate = canonicalIdentity

def isEntityRow (r : ScalarRow) : Bool := r.predicate = "CANONICAL_ENTITY"

/-- A scope in a statement, on identity rows only. -/
def scopeConds (sc : Scope) : List (Cond ScalarRow) := [test isIdentity, membershipScopePred sc]

/-- The rows that meet the conditions. -/
def EntityTables.rows (db : EntityTables) (conds : List (Cond ScalarRow)) : Except PyError (List ScalarRow) :=
  Statement.select conds db.states

def refsOf (rows : List ScalarRow) : List String := rows.map (·.entityRef)

/-- The distinct refs, in their order. -/
def distinctRefs (rows : List ScalarRow) : List String := (refsOf rows).dedup.insertionSort (· ≤ ·)

/-- `ORDER BY entity_ref`. -/
def byRef (listing : Listing) (rows : List ScalarRow) : List ScalarRow :=
  (listing.list rows).insertionSort fun r r' => r.entityRef ≤ r'.entityRef

/-- The row that stands for a ref: its identity row, or else the first one. -/
def winner (rows : List ScalarRow) (ref : String) : Option ScalarRow :=
  let own := rows.filter (·.entityRef = ref)
  (own.find? isIdentity).or own.head?

/-- `float | None` of a hit. -/
def hitConfidence : Json → Except PyError Json
  | .null => .ok .null
  | .num n => .ok (.num n.toFloat)
  | .bool b => .ok (.num (boolNum b).toFloat)
  | _ => .error .valueError

/-- The label of a hit, which is a text. -/
def hitLabel : Json → Except PyError String
  | .str s => .ok s
  | _ => .error .valueError

/-- `_entity_hit` of an identity row. -/
def identityHit (r : ScalarRow) : Except PyError QueryResultHit := do
  let md := parseMetadata r.objectRef
  let label ← hitLabel (pyOr (md.get "display_label") (.str r.entityRef))
  let conf := if (md.get "confidence").isNone then r.confidence else md.get "confidence"
  let state := pyOr (pyOr (md.get "state") r.state) (.str "UNKNOWN")
  let aliases ← pyList (md.get "aliases")
  let support ← pyList (md.get "support_refs")
  let memberships ← pyDict (md.get "memberships")
  let derived ← pyList (md.get "derived_from")
  let correspondence ← pyList (md.get "correspondence")
  let confidence ← hitConfidence conf
  let generatedBy := pyOr (md.get "generated_by") (.obj [])
  return {
    ref := r.entityRef
    kind := "CANONICAL_ENTITY"
    label := label
    predicate := some "CANONICAL_ENTITY"
    value := some label
    confidence := confidence
    provenance := [("predicate", .str canonicalIdentity), ("support_refs", .arr support), ("state", state),
      ("classification", md.get "classification"), ("generated_by", generatedBy), ("created_by", md.get "created_by"),
      ("derived_from", .arr derived), ("correspondence", .arr correspondence)]
    capabilities := [("canonical_type", md.get "canonical_type"), ("aliases", .arr aliases), ("state", state),
      ("memberships", .obj memberships), ("display_label", .str label), ("classification", md.get "classification")]
    data := [("seq", natJson r.seq), ("authority", r.authority), ("canonical_type", md.get "canonical_type"), ("aliases", .arr aliases),
      ("state", state), ("confidence", conf), ("support_refs", .arr support), ("memberships", .obj memberships),
      ("display_label", .str label), ("classification", md.get "classification"), ("generated_by", generatedBy),
      ("created_by", md.get "created_by"), ("derived_from", .arr derived), ("correspondence", .arr correspondence)] }

/-- `_entity_hit`. -/
def entityHit (r : ScalarRow) : Except PyError QueryResultHit :=
  if isIdentity r then identityHit r
  else
    .ok {
      ref := r.entityRef
      kind := "CANONICAL_ENTITY"
      label := "canonical entity"
      predicate := some "CANONICAL_ENTITY"
      value := r.objectRef
      confidence := r.confidence
      data := [("seq", natJson r.seq), ("authority", r.authority)] }

/-! ## Aliases -/

/-- `_alias_entity_ids`. -/
def aliasEntityIds (db : EntityTables) (aliasText : String) : List String :=
  ((db.entityMap.filter (·.aliasText = aliasText)).flatMap fun m => [m.entityId, m.canonicalEntityId]) ++
    (db.states.filter fun r => isEntityRow r && r.entityRef = aliasText).filterMap (fun r => r.objectRef.filter (· ≠ "")) ++
    (db.events.filter fun e => e.eventType = .EntityResolved ∧ astext (e.payload.get "kind") = some "ALIAS" ∧
      astext (e.payload.get "entity_id") = some aliasText).filterMap fun e => (astext (e.payload.get "target_entity_id")).filter (· ≠ "")

/-- `_identity_alias_refs`. -/
def identityAliasRefs (db : EntityTables) (aliasText : String) : Except PyError (List String) := do
  let named ← (db.states.filter isIdentity).mapM fun r =>
    (pyList ((parseMetadata r.objectRef).get "aliases")).map fun aliases => (r.entityRef, (aliases.map pyStr).contains aliasText)
  return (named.filter (·.2)).map (·.1)

/-- The refs that an alias is looked up as. -/
def aliasRefs (db : EntityTables) (aliasText : String) : Except PyError (List String) := do
  let refs ← identityAliasRefs db aliasText
  return aliasEntityIds db aliasText ++ refs

/-! ## The operation -/

/-- The page of `entities`. -/
def entityPage (q : StructuredQuery) (results : List QueryResultHit) (total : ℕ) : ProvenanceBearingPage where
  query := q.kind
  results := results
  total := total
  limit := q.limit
  offset := q.offset
  resultKinds := ["CANONICAL_ENTITY"]
  provenance := [("authority", .str "postgres typed relational projection")]

/-- The rows of a list that Python finds in scope. -/
def keepInScope (sc : Scope) (rows : List ScalarRow) : Except PyError (List ScalarRow) := Statement.select [inMembershipScope sc] rows

/-- `filters["name_fuzzy"] or filters["label_contains"]`. -/
def fuzzyName (q : StructuredQuery) : Option String := (q.filter "name_fuzzy").or (q.filters.lookup "label_contains")

/-- A display label that is asked for; `lower` is `str.lower`. -/
def labelled (lower : String → String) (q : StructuredQuery) (r : ScalarRow) : Bool :=
  let label := pyStr (pyOr ((parseMetadata r.objectRef).get "display_label") (.str ""))
  (q.filters.lookup "name").all (label = ·) && (fuzzyName q).all fun s => decide ((lower s).toList <:+: (lower label).toList)

/-- By name: the rows are filtered, sorted and cut in Python. -/
def byName (lower : String → String) (db : EntityTables) (listing : Listing) (sc : Scope) (q : StructuredQuery) :
    Except PyError ProvenanceBearingPage := do
  let rows ← db.rows (base q ++ test isIdentity :: (if sc = [] then [] else scopeConds sc))
  let inScope ← keepInScope sc (listing.list rows)
  let ordered := (inScope.filter (labelled lower q)).insertionSort fun r r' => r.entityRef ≤ r'.entityRef
  let results ← ((ordered.drop q.offset).take q.limit).mapM entityHit
  return entityPage q results ordered.length

/-- The conditions by alias. -/
def aliasConds (sc : Scope) (q : StructuredQuery) (refs : List String) : List (Cond ScalarRow) :=
  base q ++ (if sc = [] then [test fun r => isEntityRow r || isIdentity r] else scopeConds sc) ++ [test fun r => refs.contains r.entityRef]

/-- By alias: the rows are fetched up to a bound, and cut in Python. -/
def byAlias (db : EntityTables) (listing : Listing) (sc : Scope) (q : StructuredQuery) (aliasText : String) :
    Except PyError ProvenanceBearingPage := do
  let refs ← aliasRefs db aliasText
  let rows ← db.rows (aliasConds sc q refs)
  let fetched := (byRef listing rows).take ((q.limit + q.offset) * 2 + 4)
  let best := (distinctRefs fetched).filterMap (winner fetched)
  let ordered ← keepInScope sc best
  let total := if sc = [] then ordered.length else (distinctRefs rows).length
  let results ← ((ordered.drop q.offset).take q.limit).mapM entityHit
  return entityPage q results total

/-- The conditions in general. -/
def generalConds (sc : Scope) (q : StructuredQuery) : List (Cond ScalarRow) :=
  base q ++ (if sc = [] then [test fun r => isIdentity r || (isEntityRow r && r.entityRef.toList.contains ':')] else scopeConds sc)

/-- In general: the distinct refs of a page first, then their rows. -/
def general (db : EntityTables) (listing : Listing) (sc : Scope) (q : StructuredQuery) : Except PyError ProvenanceBearingPage := do
  let rows ← db.rows (generalConds sc q)
  let refs := ((distinctRefs rows).drop q.offset).take q.limit
  let winners := refs.filterMap (winner (byRef listing (rows.filter fun r => refs.contains r.entityRef)))
  let ordered ← keepInScope sc winners
  let results ← (ordered.take q.limit).mapM entityHit
  return entityPage q results (distinctRefs rows).length

/-- `entities`. -/
def entities (lower : String → String) (db : EntityTables) (listing : Listing) (q : StructuredQuery) :
    Except PyError ProvenanceBearingPage := do
  scope q false false false
  let sc ← membershipScope q
  if (q.filters.lookup "name").isSome || (fuzzyName q).isSome then byName lower db listing sc q
  else
    match q.filters.lookup "alias" with
    | some aliasText => byAlias db listing sc q aliasText
    | none => general db listing sc q

end Umd.Query
