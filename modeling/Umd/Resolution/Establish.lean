import Umd.Lib.JsonDict
import Umd.Lib.Steps
import Umd.Resolution.Resolver
import Umd.Storage.Memberships
import Umd.Storage.Tidy
/-!
# Establishments

`Resolver.establish` by a machine appends an `EntityResolved` event with the metadata of
a canonical under a key that is made of this metadata but for its `state` and its
`classification`. A session is a sequence of such calls for one canonical.
-/

namespace Umd.Resolution

open Umd.Lib Umd.Events Umd.Reducer Umd.Ledger Umd.Projections

/-- The arguments of a call. The aliases are a list, if they are given, and a dictionary has no key twice. -/
structure Establishment where
  metadata : Dict
  reason : Option String := none
  createdBy : Option String := none
  distinct : metadata.keys.Nodup
  distinctMemberships : ∀ d : Dict, metadata.get "memberships" = .obj d → d.keys.Nodup
  listedAliases : ∀ d : Dict, metadata.get "aliases" ≠ .obj d

/-- `float | None` of an event. -/
def eventConfidence : Json → Except PyError (Option Number)
  | .null => .ok none
  | .num n => .ok (some n.toFloat)
  | .bool b => .ok (some (boolNum b).toFloat)
  | _ => .error .valueError

/-- `generated_by or {}` of an event. -/
def eventGeneratedBy (j : Json) : Except PyError Dict :=
  if j.truthy then
    match j with
    | .obj d => .ok d
    | _ => .error .valueError
  else .ok []

/-- A payload field for a value that is not `None`. -/
def present (k : String) (j : Json) : Dict := if j.isNone then [] else [(k, j)]

/-- The payload of an establishment. -/
def establishPayload (canonical : String) (e : Establishment) (refs aliases supportRefs : List Json) : Dict :=
  let m := e.metadata
  [("kind", .str "ESTABLISH"), ("entity_id", .str canonical), ("target_entity_id", .str canonical), ("refs", .arr refs),
   ("assignments", .obj [(canonical, .str canonical)]), ("reason", .str (reasonOr e.reason "canonical establishment")),
   ("quarantined_refs", .arr []), ("canonical_type", m.get "canonical_type"), ("display_label", m.get "display_label"),
   ("aliases", .arr aliases), ("support_refs", .arr supportRefs), ("memberships", pyOr (m.get "memberships") (.obj [])),
   ("state", m.get "state"), ("classification", m.get "classification")] ++
  (present "confidence" (m.get "confidence") ++ (present "attributed_actor" (m.get "attributed_actor") ++
    present "membership_tuples" (m.get "membership_tuples")))

/-- The event of `establish`, as `resolved_event` makes it. -/
def establishEvent (canonical : String) (e : Establishment) : Except PyError SemanticEvent := do
  let refs ← pyList (pyOr (e.metadata.get "support_refs") (.arr [.str canonical]))
  let aliases ← pyList (e.metadata.get "aliases")
  let supportRefs ← pyList (e.metadata.get "support_refs")
  let confidence ← eventConfidence (e.metadata.get "confidence")
  let generatedBy ← eventGeneratedBy (e.metadata.get "generated_by")
  return {
    eventType := .EntityResolved
    authority := some "machine"
    confidence := confidence
    createdBy := e.createdBy
    generatedBy := generatedBy
    payload := establishPayload canonical e refs aliases supportRefs }

/-- `fingerprint`. -/
def fingerprint (metadata : Dict) : Dict := metadata.filter fun f => f.1 ≠ "state" && f.1 ≠ "classification"

/-- The idempotency key of a call. -/
def establishKey (canonical : String) (metadata : Dict) : Uuid :=
  uuid5 ("umd-establish:" ++ canonical ++ "\x1f" ++ dumps (.obj (fingerprint metadata)))

/-- `Resolver.establish`. -/
def resolverEstablish (db : Db) (canonical : String) (e : Establishment) : Db × Except AppendError CommitResult :=
  match establishEvent canonical e with
  | .error err => (db, .error (.python err))
  | .ok ev => append db (keyed ev (establishKey canonical e.metadata))

/-! ## Sessions -/

/-- The database, and the calls that have returned, the last one first. -/
structure Session where
  db : Db
  made : List Establishment := []

/-- One call. -/
def Session.call (canonical : String) (s : Session) (e : Establishment) : Option Session :=
  match resolverEstablish s.db canonical e with
  | (db, .ok _) => some ⟨db, e :: s.made⟩
  | (db, .error _) => some ⟨db, s.made⟩

/-- The identity row of a canonical. -/
def identityRow (db : Db) (canonical : String) : Option ScalarRow := db.state (canonical, canonicalIdentity)

/-- `_parse_metadata` of a row. -/
def metadataOf (r : ScalarRow) : Dict := parseMetadata r.objectRef

/-- A sub-list of the memberships that a row records. -/
def recorded (r : ScalarRow) (key : String) : List Json := recordedItems r.objectRef key

/-- A sub-list of given memberships, with the correlated tuples. -/
def givenItems (memberships tuples : Json) (key : String) : List Json :=
  itemsOf ((fieldsOf memberships).get key) ++ if key = "tuples" then itemsOf tuples else []

def Establishment.given (e : Establishment) (key : String) : List Json :=
  givenItems (e.metadata.get "memberships") (e.metadata.get "membership_tuples") key

def membershipKeys : List String := ["source_ids", "work_ids", "continuity_ids", "tuples"]

/-- The row carries the label, the type and the aliases of a call, as they read back. -/
structure Labelled (r : ScalarRow) (e : Establishment) : Prop where
  displayLabel : (metadataOf r).get "display_label" = (e.metadata.get "display_label").norm
  canonicalType : (metadataOf r).get "canonical_type" = (e.metadata.get "canonical_type").norm
  aliases : ∃ xs, pyList (e.metadata.get "aliases") = .ok xs ∧ (metadataOf r).get "aliases" = .arr (xs.map Json.norm)

/-- The row has every source, work, continuity and tuple of a call. -/
def Accumulates (r : ScalarRow) (e : Establishment) : Prop :=
  ∀ key ∈ membershipKeys, ∀ x ∈ e.given key, ∃ y ∈ recorded r key, Same x y

/-- The identity row carries the last call's metadata and every call's memberships. -/
structure Carried (canonical : String) (s : Session) : Prop where
  last : ∀ e, s.made.head? = some e → ∃ r, identityRow s.db canonical = some r ∧ Labelled r e
  all : ∀ e ∈ s.made, ∃ r, identityRow s.db canonical = some r ∧ Accumulates r e

/-- A canonical that is neither locked nor overridden, before the first call for it. -/
structure Fresh (canonical : String) (db : Db) : Prop where
  reached : Run appendStep Any {} db
  named : canonical ≠ ""
  unlocked : db.state.isLocked canonical = false
  machine : ∀ r, identityRow db canonical = some r → r.authority ≠ .str userOverride
  unkeyed : ∀ row ∈ db.events, ∀ metadata, row.idempotencyKey ≠ some (establishKey canonical metadata)
  tuples : ∀ r, identityRow db canonical = some r → ∀ x ∈ recorded r "tuples", isArr x = true

/-- The tuples among given memberships are lists, and are not replaced by correlated ones. -/
def KeepsTuples (e : Establishment) : Prop :=
  if (e.metadata.get "membership_tuples").truthy then
    ∀ x ∈ itemsOf ((fieldsOf (e.metadata.get "memberships")).get "tuples"), ∃ y ∈ itemsOf (e.metadata.get "membership_tuples"), Same x y
  else ∀ xs, pyList ((fieldsOf (e.metadata.get "memberships")).get "tuples") = .ok xs → xs.all isArr = true

/-- What keeps the identity row in step with the calls: a call whose key is taken finds the row as the event of this key left
it, and any other gives memberships, or none was given before. -/
def InStep (canonical : String) (s : Session) (e : Establishment) : Prop :=
  match seqOfKey s.db.events (establishKey canonical e.metadata) with
  | some n => ∃ r, identityRow s.db canonical = some r ∧ r.seq = n
  | none =>
    ((e.metadata.get "memberships").truthy = true ∨ (e.metadata.get "membership_tuples").truthy = true ∨
      ∀ e' ∈ s.made, ∀ key ∈ membershipKeys, e'.given key = []) ∧ KeepsTuples e

end Umd.Resolution
