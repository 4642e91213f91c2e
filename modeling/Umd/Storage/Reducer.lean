import Umd.Domain.Events
/-!
# The Tier-0 current-state reducer

`reduce` folds one event into the rows of `current_state`, keyed by
`(entity_ref, predicate)`, and the lock map. An event that establishes or
corrects a canonical identity is folded twice: by `reduceCurrentState` into its
target row and, from the row as it was before, by `reduceCanonicalIdentity`
into the identity row. Both respect authority precedence and last-write-wins.

A row keeps `authority`, `confidence` and `state` as the values the fold
copies from payloads, which are strings and numbers where a schema says so.
-/

namespace Umd.Reducer

open Umd.Lib Umd.Events

/-- `USER_OVERRIDE`. -/
def userOverride : String := "USER_OVERRIDE"

/-- `LOCK_PREDICATE`. -/
def lockPredicate : String := "*LOCK*"

def stateLocked : Json := .str "LOCKED"
def stateUnlocked : Json := .str "UNLOCKED"

/-- `CANONICAL_IDENTITY_PREDICATE`. -/
def canonicalIdentity : String := "CANONICAL_IDENTITY"

/-- The columns of the `current_state` table. -/
structure ScalarRow where
  entityRef : String
  predicate : String
  objectRef : Option String
  confidence : Json
  authority : Json
  state : Json
  seq : Nat
deriving BEq

structure CurrentStateRow where
  entityRef : String
  predicate : String
  objectRef : Option String := none
  confidence : Json := .null
  authority : Json := .null
  state : Json := .str "UNKNOWN"
  seq : Nat := 0
  locked : Bool := false
  alternatives : List Json := []
  contradictionRefs : List String := []

/-- The part of a row that is stored. -/
def CurrentStateRow.scalar (row : CurrentStateRow) : ScalarRow where
  entityRef := row.entityRef
  predicate := row.predicate
  objectRef := row.objectRef
  confidence := row.confidence
  authority := row.authority
  state := row.state
  seq := row.seq

/-- `(entity_ref, predicate)`. -/
abbrev Key := String × String

def CurrentStateRow.key (row : CurrentStateRow) : Key := (row.entityRef, row.predicate)

/-- A row with nothing but its key. -/
def CurrentStateRow.seed (k : Key) : CurrentStateRow := { entityRef := k.1, predicate := k.2 }

structure CurrentReducedState where
  rows : Key → Option CurrentStateRow := fun _ => none
  /-- The lock map; `locks.get(ref)` is true. -/
  locks : String → Bool := fun _ => false

/-- `d[k] = v`. -/
def upd {κ α : Type} [DecidableEq κ] (d : κ → α) (k : κ) (v : α) : κ → α := fun k' => if k' = k then v else d k'

@[simp] theorem upd_self {κ α : Type} [DecidableEq κ] (d : κ → α) (k : κ) (v : α) : upd d k v k = v := by simp [upd]

theorem upd_same {κ α : Type} [DecidableEq κ] (d : κ → α) (k : κ) : upd d k (d k) = d := by
  funext k'
  by_cases h : k' = k
  · rw [h, upd_self]
  · simp [upd, h]

theorem upd_twice {κ α : Type} [DecidableEq κ] (d : κ → α) (k : κ) (v v' : α) : upd (upd d k v) k v' = upd d k v' := by
  funext k'
  by_cases h : k' = k <;> simp [upd, h]

theorem upd_ne {κ α : Type} [DecidableEq κ] (d : κ → α) {k k' : κ} (v : α) (h : k' ≠ k) : upd d k v k' = d k' := by
  simp [upd, h]

/-! ## The row an event addresses -/

/-- The first of the fields that is there and not empty. -/
def firstRef (p : Dict) : List String → Option String
  | [] => none
  | k :: ks => if (p.get k).truthy then some (pyStr (p.get k)) else firstRef p ks

/-- `entity_ref_of`. -/
def entityRefOf (ev : SemanticEvent) : Option String :=
  firstRef ev.payload ["subject_ref", "entity_ref", "source_id", "subject_entity_id", "entity_id"]

/-- `NON_SEMANTIC`. -/
def nonSemantic : List EventType :=
  [.JobRunAudit, .SourceIngested, .SourceAliased, .FormatAnalyzed, .SegmentCreated, .StageCompleted,
   .ReferenceRebound, .Aligned, .LocatorRebased, .HallucinationFiltered]

/-- `_CHANGE_EVENTS`. -/
def changeEvents : List EventType :=
  [.SemanticAsserted, .OverrideApplied, .CorrectionApplied, .ContradictionRecorded, .Invalidated, .EntityResolved,
   .EntityMentioned]

/-- `Locked` or `Unlocked`. -/
def isLockEvent (etype : EventType) : Bool := etype = .Locked || etype = .Unlocked

/-- `event_target`: the row an event updates; the predicate of a lock event is `*`. -/
def eventTarget (ev : SemanticEvent) : Option Key :=
  if ev.eventType ∈ nonSemantic then none else
  match entityRefOf ev with
  | none => none
  | some ref =>
    if isLockEvent ev.eventType then some (ref, "*") else
    match pyOr (ev.payload.get "predicate") (ev.payload.get "predicate_code") with
    | .null =>
      if ev.eventType = .EntityResolved then some (ref, "CANONICAL_ENTITY")
      else if ev.eventType = .EntityMentioned then some (ref, "CANDIDATE")
      else none
    | predicate => some (ref, pyStr predicate)

/-- `_targets_row`. -/
def targetsRow (row : CurrentStateRow) (ev : SemanticEvent) : Bool :=
  match eventTarget ev with
  | none => false
  | some (ref, predicate) => ref = row.entityRef && (predicate = "*" || predicate = row.predicate)

/-! ## `reduce_current_state` -/

/-- `event.authority == USER_OVERRIDE`. -/
def byUser (ev : SemanticEvent) : Bool := ev.authority == some userOverride

/-- `_or_ref`. -/
def orRef : Json → Option String
  | .null => none
  | j => some (pyStr j)

/-- What `alternatives` remembers of a winner. -/
def superseded (row : CurrentStateRow) : Json :=
  .obj [("object_ref", Json.ofStr? row.objectRef), ("authority", row.authority), ("state", row.state),
    ("confidence", row.confidence), ("seq", .num (.dec row.seq 0))]

/-- `_override_winner`. -/
def overrideWinner (row : CurrentStateRow) (ev : SemanticEvent) (seq : Nat) : CurrentStateRow :=
  { row with
    objectRef := orRef (ev.payload.get "object_ref")
    confidence := (ev.payload.get? "confidence").getD row.confidence
    authority := .str userOverride
    state := .str "USER_CONFIRMED"
    seq := seq }

/-- `_assertion`. -/
def assertion (row : CurrentStateRow) (ev : SemanticEvent) (seq : Nat) : CurrentStateRow :=
  let newValue := pyOr (ev.payload.get "object_ref") (ev.payload.get "object_entity_id")
  let lost := !newValue.isNone && !(row.objectRef.any newValue.isStr) && row.objectRef.isSome
  { row with
    objectRef := orRef newValue
    confidence := if (ev.payload.get "confidence").isNone then row.confidence else ev.payload.get "confidence"
    authority := pyOr (pyOr (Json.ofStr? ev.authority) (ev.payload.get "authority")) row.authority
    state := pyOr (ev.payload.get "state") row.state
    seq := seq
    alternatives := if lost then row.alternatives ++ [superseded row] else row.alternatives }

/-- `_contradiction`. -/
def contradiction (row : CurrentStateRow) (ev : SemanticEvent) (seq : Nat) : CurrentStateRow :=
  let contrad := pyOr (pyOr (ev.payload.get "contradicting_ref") (ev.payload.get "refs")) (.arr [])
  let refs := match contrad with
    | .str s => [s]
    | .arr xs => xs.map pyStr
    | _ => []
  { row with
    state := .str "CONFLICTING"
    seq := seq
    contradictionRefs := row.contradictionRefs ++ refs
    authority := pyOr (Json.ofStr? ev.authority) row.authority }

/-- The `Invalidated` branch of `_apply_change`. -/
def invalidation (row : CurrentStateRow) (ev : SemanticEvent) (seq : Nat) : CurrentStateRow :=
  { row with
    state := .str "INVALIDATED"
    seq := seq
    authority := pyOr (Json.ofStr? ev.authority) row.authority }

/-- The assertion `_entity_resolved` makes of a resolution. -/
def resolvedAssertion (ev : SemanticEvent) (seq : Nat) : SemanticEvent :=
  let kind := (ev.payload.get? "kind").getD (.str "ALIAS")
  let target := pyOr (ev.payload.get "target_entity_id") (ev.payload.get "entity_id")
  let default := if kind.isStr "ALIAS" || kind.isStr "ESTABLISH" then "CONFIRMED" else "PROBABLE"
  { eventType := .SemanticAsserted
    payload :=
      [("predicate_code", .str "CANONICAL_ENTITY"),
       ("subject_ref", .str (pyStr ((ev.payload.get? "entity_id").getD (.str "")))),
       ("object_ref", if target.truthy then .str (pyStr target) else .null),
       ("authority", Json.ofStr? ev.authority),
       ("confidence", ev.payload.get "confidence"),
       ("state", pyOr (ev.payload.get "state") (.str default))]
    authority := ev.authority
    seq := some seq }

/-- `_entity_resolved`. -/
def entityResolved (row : CurrentStateRow) (ev : SemanticEvent) (seq : Nat) : CurrentStateRow :=
  assertion { row with authority := .null } (resolvedAssertion ev seq) seq

/-- `_candidate`. -/
def candidate (row : CurrentStateRow) (ev : SemanticEvent) (seq : Nat) : CurrentStateRow :=
  let mention := pyOr (pyOr (ev.payload.get "mention_text") (ev.payload.get "mention_id"))
    (.str (pyStr ((ev.payload.get? "source_id").getD (.str ""))))
  { row with
    state := .str "AMBIGUOUS"
    seq := seq
    authority := pyOr (Json.ofStr? ev.authority) row.authority
    alternatives := row.alternatives ++ [.obj [("mention", mention)]] }

/-- The guards of a machine event: a user override stays, and only a later
event replaces a row. -/
def outranked (row : CurrentStateRow) (ev : SemanticEvent) (seq : Nat) : Bool :=
  (row.authority.isStr userOverride && !byUser ev) || seq < row.seq || seq == row.seq

/-- `OverrideApplied` or `CorrectionApplied`. -/
def isOverride (etype : EventType) : Bool := etype = .OverrideApplied || etype = .CorrectionApplied

/-- The seq a row takes: the event's, or the next one for an event without. -/
def seqOn (row : CurrentStateRow) (ev : SemanticEvent) : Nat := ev.seq.getD (row.seq + 1)

/-- `_apply_change`. -/
def applyChange (row : CurrentStateRow) (ev : SemanticEvent) : CurrentStateRow :=
  if isOverride ev.eventType then overrideWinner row ev (seqOn row ev)
  else if outranked row ev (seqOn row ev) then row
  else match ev.eventType with
    | .ContradictionRecorded => contradiction row ev (seqOn row ev)
    | .Invalidated => invalidation row ev (seqOn row ev)
    | .EntityResolved => entityResolved row ev (seqOn row ev)
    | .EntityMentioned => candidate row ev (seqOn row ev)
    | _ => assertion row ev (seqOn row ev)

/-- `reduce_current_state` on a row that is there. -/
def reduceCurrentState (row : CurrentStateRow) (ev : SemanticEvent) : CurrentStateRow :=
  if ev.eventType = .Locked then (if targetsRow row ev then { row with locked := true } else row)
  else if ev.eventType = .Unlocked then (if targetsRow row ev then { row with locked := false } else row)
  else if row.locked then row
  else if ev.eventType ∉ changeEvents then row
  else if !targetsRow row ev then row
  else applyChange row ev

/-! ## The canonical identity row -/

/-- The canonical reference an event establishes, corrects or invalidates. -/
def identityRef (ev : SemanticEvent) : Json :=
  if ev.eventType = .EntityResolved ∧
      ((ev.payload.get "kind").isStr "ESTABLISH" || (ev.payload.get "kind").isStr "UPDATE") then
    ev.payload.get "entity_id"
  else if ev.eventType ∈ [EventType.OverrideApplied, .CorrectionApplied, .Invalidated] ∧
      (ev.payload.get "predicate").isStr canonicalIdentity then
    Json.ofStr? (entityRefOf ev)
  else .null

/-- `identity_event_target`. -/
def identityEventTarget (ev : SemanticEvent) : Option Key :=
  if (identityRef ev).truthy then some (pyStr (identityRef ev), canonicalIdentity) else none

/-- `_parse_metadata` of a text: the object it encodes, if it does. -/
def parseObject (text : String) : Option Dict := (loads text).bind Json.obj?

/-- The metadata an event's own fields carry. -/
def payloadMetadata (ev : SemanticEvent) : Except PyError Dict := do
  let p := ev.payload
  let memberships ← pyDict (p.get "memberships")
  let tuples ← pyList (p.get "membership_tuples")
  let memberships :=
    if (p.get "membership_tuples").truthy then memberships.set "tuples" (.arr tuples) else memberships
  let aliases ← pyList (p.get "aliases")
  let supportRefs ← pyList (p.get "support_refs")
  let generatedBy ← pyDict (pyOr (p.get "generated_by") (.obj ev.generatedBy))
  let derivedFrom ← pyList (p.get "derived_from")
  let correspondence ← pyList (p.get "correspondence")
  let established := if (p.get "kind").isStr "ESTABLISH" then .str "CONFIRMED" else .null
  let fields : Dict :=
    [("canonical_type", p.get "canonical_type"), ("display_label", p.get "display_label"), ("aliases", .arr aliases),
     ("support_refs", .arr supportRefs), ("memberships", .obj memberships),
     ("state", pyOr (p.get "state") established), ("confidence", p.get "confidence"),
     ("classification", p.get "classification"), ("generated_by", .obj generatedBy),
     ("created_by", pyOr (p.get "actor") (Json.ofStr? ev.createdBy)), ("derived_from", .arr derivedFrom),
     ("correspondence", .arr correspondence)]
  return if (p.get "attributed_actor").isNone then fields else fields.set "attributed_actor" (p.get "attributed_actor")

/-- `_identity_metadata`. -/
def identityMetadata (ev : SemanticEvent) : Except PyError Dict :=
  let raw := ev.payload.get "object_ref"
  match if isOverride ev.eventType && raw.truthy then parseObject (pyStr raw) else none with
  | some parsed => .ok parsed
  | none => payloadMetadata ev

/-- `_parse_metadata`. -/
def parseMetadata (objectRef : Option String) : Dict := (objectRef.bind parseObject).getD []

def emptyMemberships : Dict := [("source_ids", .arr []), ("work_ids", .arr []), ("continuity_ids", .arr [])]

def isArr : Json → Bool
  | .arr _ => true
  | _ => false

/-- A sub-list of memberships: correlated tuples as they are, anything else as texts. -/
def membershipList : Json → Json
  | .arr xs => if !xs.isEmpty && xs.all isArr then .arr xs else .arr (xs.map fun x => .str (pyStr x))
  | _ => .arr []

/-- `_memberships_of`. -/
def membershipsOf (row : CurrentStateRow) : Dict :=
  match row.objectRef.bind parseObject with
  | none => emptyMemberships
  | some parsed =>
    match parsed.get "memberships" with
    | .obj d => d.map fun f => (f.1, membershipList f.2)
    | _ => emptyMemberships

/-- The keys of both in order. -/
def insertKey (k : String) : List String → List String
  | [] => [k]
  | k' :: ks => if k = k' then k' :: ks else if k < k' then k :: k' :: ks else k' :: insertKey k ks

/-- The items without those that come again. -/
def dedup (xs : List Json) : List Json := xs.foldl (fun seen x => if pyIn x seen then seen else seen ++ [x]) []

def unionAt (prev incoming : Dict) (key : String) : Except PyError (String × Json) := do
  let old ← pyList (prev.get key)
  let new ← pyList (incoming.get key)
  return (key, .arr (dedup (old ++ new)))

/-- `_union_memberships`; a value without `get` raises. -/
def unionMemberships (prev : Dict) : Json → Except PyError Dict
  | .obj incoming => ((Dict.keys prev ++ Dict.keys incoming).foldr insertKey []).mapM (unionAt prev incoming)
  | .arr _ => .error .attributeError
  | .str _ => .error .attributeError
  | _ => .error .typeError

/-- An override merges what it gives over the metadata of the winner. -/
def mergedMetadata (row : CurrentStateRow) (ev : SemanticEvent) (metadata : Dict) : Dict :=
  let merged := (parseMetadata row.objectRef).update metadata
  let merged := if byUser ev && !(merged.get "classification").truthy then
    merged.set "classification" (.str "accepted") else merged
  merged.set "created_by"
    (pyOr (pyOr (Json.ofStr? ev.createdBy) (ev.payload.get "actor")) (merged.get "created_by"))

/-- `payload_conf`. -/
def payloadConf (ev : SemanticEvent) (row : CurrentStateRow) : Except PyError Json :=
  if (ev.payload.get "confidence").isNone then
    .ok (if ev.confidence.isSome then Json.ofNum? ev.confidence else row.confidence)
  else pyFloat (ev.payload.get "confidence")

/-- The winner with its new metadata. -/
def identityWinner (row : CurrentStateRow) (ev : SemanticEvent) (seq : Nat) (metadata : Dict) (conf : Json) :
    CurrentStateRow :=
  let objectRef := dumps (.obj metadata)
  let lost := row.objectRef.any (· ≠ "") && row.objectRef ≠ some objectRef
  { row with
    objectRef := some objectRef
    confidence := conf
    authority := if byUser ev then .str userOverride else pyOr (Json.ofStr? ev.authority) row.authority
    state := if byUser ev then .str "USER_CONFIRMED"
      else pyOr (pyOr (metadata.get "state") row.state) (.str "CONFIRMED")
    seq := seq
    alternatives := if lost then row.alternatives ++ [superseded row] else row.alternatives }

/-- The metadata of the new winner. -/
def winnerMetadata (row : CurrentStateRow) (ev : SemanticEvent) : Except PyError Dict := do
  let metadata ← identityMetadata ev
  let metadata := if isOverride ev.eventType then mergedMetadata row ev metadata else metadata
  if (metadata.get "memberships").truthy then
    let union ← unionMemberships (membershipsOf row) (metadata.get "memberships")
    return metadata.set "memberships" (.obj union)
  else return metadata

/-- `_reduce_canonical_identity`. -/
def reduceCanonicalIdentity (row : CurrentStateRow) (ev : SemanticEvent) : Except PyError CurrentStateRow :=
  if outranked row ev (seqOn row ev) then .ok row
  else if ev.eventType = .Invalidated then .ok (invalidation row ev (seqOn row ev))
  else do
    let metadata ← winnerMetadata row ev
    let conf ← payloadConf ev row
    return identityWinner row ev (seqOn row ev) metadata conf

/-! ## `CurrentStateReducer` -/

/-- The `*LOCK*` marker a lock event leaves. -/
def lockMarker (marker : CurrentStateRow) (ev : SemanticEvent) (locked : Bool) : CurrentStateRow :=
  { marker with
    state := if locked then stateLocked else stateUnlocked
    objectRef := none
    seq := if ev.seq.getD 0 = 0 then marker.seq else ev.seq.getD 0
    locked := locked }

/-- The rows with those of an entity pinned or released. -/
def pinRows (rows : Key → Option CurrentStateRow) (ref : String) (locked : Bool) : Key → Option CurrentStateRow :=
  fun k => (rows k).map fun row => if k.1 = ref then { row with locked := locked } else row

/-- A lock event of `ref`. -/
def reduceLock (state : CurrentReducedState) (ev : SemanticEvent) (ref : String) (locked : Bool) :
    CurrentReducedState :=
  let rows := pinRows state.rows ref locked
  let marker := (rows (ref, lockPredicate)).getD (.seed (ref, lockPredicate))
  { rows := upd rows (ref, lockPredicate) (some (lockMarker marker ev locked))
    locks := upd state.locks ref locked }

/-- The identity row an event folds into, unless its entity is locked. -/
def identityKey (state : CurrentReducedState) (ev : SemanticEvent) : Option Key :=
  match identityEventTarget ev with
  | some k => if state.locks k.1 then none else some k
  | none => none

/-- A row, or a seed where there is none. -/
def CurrentReducedState.rowOrSeed (state : CurrentReducedState) (k : Key) : CurrentStateRow :=
  (state.rows k).getD (.seed k)

/-- An event that is no lock event, on its target row. -/
def reduceChange (state : CurrentReducedState) (ev : SemanticEvent) (target : Key) :
    Except PyError CurrentReducedState :=
  if state.locks target.1 then .ok state
  else
    let rows := upd state.rows target (some (reduceCurrentState (state.rowOrSeed target) ev))
    match identityKey state ev with
    | none => .ok { state with rows := rows }
    | some k => do
      let identity ← reduceCanonicalIdentity (state.rowOrSeed k) ev
      return { state with rows := upd rows k (some identity) }

/-- `CurrentStateReducer.reduce`. -/
def reduce (state : CurrentReducedState) (ev : SemanticEvent) : Except PyError CurrentReducedState :=
  if isLockEvent ev.eventType then
    match entityRefOf ev with
    | some ref => .ok (reduceLock state ev ref (ev.eventType = .Locked))
    | none => .ok state
  else
    match eventTarget ev with
    | none => .ok state
    | some target => if target.2 = "*" then .ok state else reduceChange state ev target

/-- The events folded in turn. -/
def reduceAll (state : CurrentReducedState) : List SemanticEvent → Except PyError CurrentReducedState
  | [] => .ok state
  | ev :: evs => do
    let state' ← reduce state ev
    reduceAll state' evs

/-- `CurrentStateReducer.replay`. -/
def replay (events : List SemanticEvent) : Except PyError CurrentReducedState := reduceAll {} events

end Umd.Reducer
