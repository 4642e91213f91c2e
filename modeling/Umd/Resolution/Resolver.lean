import Umd.Storage.Commit
/-!
# The resolver

`Resolver.merge` and `Resolver.alias` append an `EntityResolved` event each.
A merge names the target as the entity of its event and the first merged ref as
the event's target; an alias names the alias as the entity and the canonical as
the target.
-/

namespace Umd.Resolution

open Umd.Lib Umd.Events Umd.Reducer Umd.Ledger

/-- A row of `current_entity_map`. -/
structure MapRow where
  entityId : UuidValue
  aliasText : String
  canonicalEntityId : UuidValue
  originSeq : Nat

/-- The tables the resolver writes. -/
abbrev Tables := Store (List MapRow)

/-- A dictionary of texts. -/
def textDict (pairs : List (String × String)) : Dict := pairs.foldl (fun d p => d.set p.1 (.str p.2)) []

/-- `resolved_event` without the metadata of an establishment. -/
def resolvedEvent (kind entityId : String) (target : Option String) (refs : List String) (assignments : Dict)
    (reason : Option String) : SemanticEvent where
  eventType := .EntityResolved
  authority := some "machine"
  payload :=
    [("kind", .str kind), ("entity_id", .str entityId), ("target_entity_id", Json.ofStr? target),
     ("refs", .arr (refs.map .str)), ("assignments", .obj assignments), ("reason", Json.ofStr? reason),
     ("quarantined_refs", .arr []), ("canonical_type", .null), ("display_label", .null), ("aliases", .arr []),
     ("support_refs", .arr []), ("memberships", .obj []), ("state", .null), ("classification", .null)]

inductive ResolveError where
  /-- `ResolutionRejected("merge requires at least one source ref")`. -/
  | rejected
  | ledger (e : AppendError)

/-- `reason or default`. -/
def reasonOr (reason : Option String) (default : String) : String := (reason.filter (· ≠ "")).getD default

/-- The event of a merge. -/
def mergeEvent (target : String) (refs : List String) (assignments : List (String × String)) (reason : Option String) :
    SemanticEvent :=
  resolvedEvent "MERGE" target refs.head? refs
    (if assignments.isEmpty then textDict (refs.map fun ref => (ref, target)) else textDict assignments)
    (some (reasonOr reason "resolution merge"))

/-- The event of an alias. -/
def aliasEvent (aliasEntity canonical : String) (reason : Option String) : SemanticEvent :=
  resolvedEvent "ALIAS" aliasEntity (some canonical) [aliasEntity] (textDict [(aliasEntity, canonical)])
    (some (reasonOr reason "resolution alias"))

/-- `_alias_idempotency_key`. -/
def aliasKey (aliasEntity canonical : String) : Uuid := uuid5 ("umd-alias:" ++ aliasEntity ++ "\x1f" ++ canonical)

/-- `uuid_ref_or_none`. -/
def uuidRefOrNone (ref : String) : Option UuidValue := if ref = "" then none else pyUuid ref

/-- `_record_alias`: the row inserted, unless one with its key is there. -/
def recordAlias (aliasEntity : String) (aliasId canonicalId : UuidValue) (t : Tables) : Except PyError (List MapRow) :=
  if t.other.any fun r => r.entityId = aliasId && r.aliasText = aliasEntity && r.canonicalEntityId = canonicalId then .ok t.other
  else .ok (t.other ++ [⟨aliasId, aliasEntity, canonicalId, tailOf t.ledger.events + 1⟩])

def lift (r : Tables × Except AppendError CommitResult) : Tables × Except ResolveError CommitResult :=
  (r.1, r.2.mapError .ledger)

/-- `Resolver.merge`. -/
def resolverMerge (t : Tables) (target : String) (refs : List String) (assignments : List (String × String))
    (reason : Option String) : Tables × Except ResolveError CommitResult :=
  if refs.isEmpty then (t, .error .rejected)
  else lift (t.append { events := [⟨0, mergeEvent target refs assignments reason⟩] })

/-- `Resolver.alias`. -/
def resolverAlias (t : Tables) (aliasEntity canonical : String) (reason : Option String) :
    Tables × Except ResolveError CommitResult :=
  let call : Call :=
    { events := [⟨0, aliasEvent aliasEntity canonical reason⟩], idempotencyKey := some (aliasKey aliasEntity canonical) }
  match uuidRefOrNone aliasEntity, uuidRefOrNone canonical with
  | some aliasId, some canonicalId => lift (t.completeAndAppend call (recordAlias aliasEntity aliasId canonicalId))
  | _, _ => lift (t.append call)

/-- A call of the resolver. -/
inductive Resolve where
  | merge (target : String) (refs : List String) (assignments : List (String × String)) (reason : Option String)
  | aliasTo (aliasEntity canonical : String) (reason : Option String)

namespace Resolve

def run (t : Tables) : Resolve → Tables
  | .merge target refs assignments reason => (resolverMerge t target refs assignments reason).1
  | .aliasTo aliasEntity canonical reason => (resolverAlias t aliasEntity canonical reason).1

/-- The refs a call merges or aliases, each with its target. -/
def assigned : Resolve → List (String × String)
  | .merge target refs _ _ => refs.map fun ref => (ref, target)
  | .aliasTo aliasEntity canonical _ => [(aliasEntity, canonical)]

end Resolve

/-- The tables after the calls. -/
def runAll (t : Tables) (calls : List Resolve) : Tables := calls.foldl Resolve.run t

def assignedAll (calls : List Resolve) : List (String × String) := calls.flatMap Resolve.assigned

end Umd.Resolution
