import Umd.Lib.Uuid
import Umd.Storage.Ledger
/-!
# The `semantic_assertion` mirror

`_materialize_assertions` writes each `SemanticAsserted` event of a batch to a
row addressed by the digest of the fact, in the transaction of the append. The
lock markers are read once for the batch, from the rows the batch has already
been folded into.
-/

namespace Umd.Ledger

open Umd.Lib Umd.Events Umd.Reducer

/-! ## Fact ids -/

/-- `uuid.uuid5(NAMESPACE_URL, name)`: the digest by its name. -/
def uuid5 (name : String) : Uuid := name

/-- `str(payload[k])` where the value is there and not empty. -/
def idText (p : Dict) (k : String) : Json := if (p.get k).truthy then .str (pyStr (p.get k)) else .null

/-- What `_assertion_fact_id` digests. -/
def assertionKey (p : Dict) : Dict :=
  [("predicate_code", p.get "predicate_code"),
   ("subject_ref", p.get "subject_ref"),
   ("object_ref", p.get "object_ref"),
   ("subject_entity_id", idText p "subject_entity_id"),
   ("object_entity_id", idText p "object_entity_id"),
   ("scope", p.get "scope"),
   ("continuity_id", idText p "continuity_id"),
   ("relationship_type", p.get "relationship_type")]

/-- `_assertion_fact_id`. -/
def assertionFactId (p : Dict) (eventVersion : Nat) : Uuid :=
  uuid5 (toString eventVersion ++ ":" ++ dumpsWith "," ":" (.obj (assertionKey p)))

/-! ## The mirror -/

/-- A row of `semantic_assertion`. -/
structure AssertionRow where
  id : Uuid
  predicateCode : Json
  subjectRef : Json
  objectRef : Json
  subjectEntityId : Option UuidValue
  objectEntityId : Option UuidValue
  authority : Json
  confidence : Json
  state : Json
  continuityId : Option UuidValue
  supportRefs : Json
  contradictionRefs : Json
  schemaRef : String
  derivation : Dict

/-- The tables `_materialize_assertions` writes. -/
structure Mirror where
  /-- The codes of the `predicate` rows. -/
  predicates : List String := []
  assertions : List AssertionRow := []

/-- `_uuid_or_none`. -/
def uuidOrNone (j : Json) : Option UuidValue :=
  match j with
  | .null => none
  | j => if j.isStr "" then none else pyUuid (pyStr j)

namespace Mirror

def find (m : Mirror) (id : Uuid) : Option AssertionRow := m.assertions.find? (·.id = id)

/-- The row of a code, inserted unless it is there. -/
def seedPredicate (m : Mirror) (code : String) : Mirror :=
  if code ∈ m.predicates then m else { m with predicates := m.predicates ++ [code] }

/-- The row inserted, or written over the one with its id. -/
def upsert (m : Mirror) (row : AssertionRow) : Mirror :=
  { m with
    assertions :=
      if m.assertions.any (·.id = row.id) then m.assertions.map fun r => if r.id = row.id then row else r
      else m.assertions ++ [row] }

end Mirror

/-- The row an assertion is mirrored as. -/
def AssertionRow.of (pe : PreparedEvent) (seq : Nat) : AssertionRow where
  id := assertionFactId pe.payload pe.eventVersion
  predicateCode := pe.payload.get "predicate_code"
  subjectRef := pe.payload.get "subject_ref"
  objectRef := pe.payload.get "object_ref"
  subjectEntityId := uuidOrNone (pe.payload.get "subject_entity_id")
  objectEntityId := uuidOrNone (pe.payload.get "object_entity_id")
  authority := pyOr (pe.payload.get "authority") (Json.ofStr? pe.authority)
  confidence :=
    if (pe.payload.get "confidence").isNone then Json.ofNum? pe.confidence else pe.payload.get "confidence"
  state := pyOr (pe.payload.get "state") (.str "UNKNOWN")
  continuityId := uuidOrNone (pe.payload.get "continuity_id")
  supportRefs := pyOr (pe.payload.get "support_refs") (.arr [])
  contradictionRefs := pyOr (pe.payload.get "contradiction_refs") (.arr [])
  schemaRef := pe.schemaUrl
  derivation :=
    [("generated_by", .obj pe.generatedBy), ("scope", pe.payload.get "scope"),
     ("derived_from", pyOr (pe.payload.get "derived_from") (.arr [])), ("source_seq", .num (.dec seq 0))]

/-- `payload.get("subject_ref") in locked_entities`, with the markers `current_state` holds. -/
def subjectLocked (state : Table) (p : Dict) : Bool :=
  match p.get "subject_ref" with
  -- an empty subject is not looked up
  | .str s => s ≠ "" && state.isLocked s
  | _ => false

/-- A user's row that a machine asserts again. -/
def keepsOverride (m : Mirror) (row : AssertionRow) : Bool :=
  ((m.find row.id).any fun r => r.authority.isStr userOverride) && !row.authority.isStr userOverride

/-- One turn of the loop of `_materialize_assertions`. -/
def materializeOne (state : Table) (m : Mirror) (pe : PreparedEvent) (seq : Nat) : Mirror :=
  if pe.eventType ≠ .SemanticAsserted then m
  else if !(pe.payload.get "predicate_code").truthy then m
  else
    let m := m.seedPredicate (pyStr (pe.payload.get "predicate_code"))
    if subjectLocked state pe.payload then m
    else if keepsOverride m (.of pe seq) then m
    else m.upsert (.of pe seq)

/-- `_materialize_assertions`. -/
def materializeAssertions (state : Table) (m : Mirror) (prepared : List PreparedEvent) (seqs : List Nat) : Mirror :=
  (prepared.zip seqs).foldl (fun m p => materializeOne state m p.1 p.2) m

end Umd.Ledger
