import Umd.Resolution.Effects
/-!
# Assignments from one run to the next

A run of `ENTITY_RESOLUTION` reads from the identity rows which mention is whose, lets
accepted alignments move a mention to another canonical, and applies its batch. An
establishment writes the row of its own canonical only: a mention is in one row just
when each row it is moved away from is established anew (`one_support_run`).
-/

namespace Umd.Resolution

open Umd.Lib Umd.Events Umd.Reducer Umd.Ledger Umd.Projections

/-! ## What a run reads -/

/-- The mention ids of an identity row, unless it is invalidated. -/
def supportRefs (r : ScalarRow) : Except PyError (List String) :=
  if r.state.isStr "INVALIDATED" then .ok [] else
  match r.objectRef.bind parseObject with
  | none => .ok []
  | some metadata => (pyList (metadata.get "support_refs")).map fun refs => refs.map pyStr

/-- The assignments with those of a row. -/
def assignRow (ids : List String) (assigned : String → Option String) (r : ScalarRow) : Except PyError (String → Option String) :=
  (supportRefs r).map fun refs => (refs.filter (· ∈ ids)).foldl (fun d id => upd d id (some r.entityRef)) assigned

/-- `_existing_canonical_assignments`; the rows are the identity rows in the order the database returns them. -/
def existingCanonicalAssignments (rows : List ScalarRow) (ids : List String) : Except PyError (String → Option String) :=
  if ids.isEmpty then .ok fun _ => none else rows.foldlM (assignRow ids) fun _ => none

/-- `_human_support` -/
def humanSupport (rows : List ScalarRow) (ids : List String) : Except PyError (String → Option String) :=
  (existingCanonicalAssignments rows ids).map fun committed id => (committed id).filter fun ref =>
    rows.any fun r => r.entityRef = ref && (r.state.isStr "USER_CONFIRMED" || r.authority.isStr userOverride)

/-- A row of `alignment`, as the correspondence reads it. -/
structure AlignedPair where
  leftRef : String
  rightRef : String
  alignmentType : String

/-- The roots of the union-find over the refs, and the refs that were joined. -/
structure Joined where
  root : String → String := id
  connected : List String := []

/-- The lesser root becomes the root of both. -/
def Joined.union (j : Joined) (left right : String) : Joined where
  root := fun x =>
    if j.root x = j.root left ∨ j.root x = j.root right then min (j.root left) (j.root right) else j.root x
  connected := left :: right :: j.connected

/-- `_accepted_correspondence` -/
def acceptedCorrespondence (rows : List ScalarRow) (alignments : List AlignedPair) (ids : List String) :
    Except PyError (String → Option String) :=
  (existingCanonicalAssignments rows ids).map fun committed id =>
    let refs := rows.map (·.entityRef)
    let accepted := alignments.filter fun a =>
      a.alignmentType ∈ ["EQUIVALENT", "CONTINUITY"] && a.leftRef ∈ refs && a.rightRef ∈ refs && a.leftRef ≠ a.rightRef
    let joined : Joined := accepted.foldl (fun j a => Joined.union j a.leftRef a.rightRef) {}
    ((committed id).filter (· ∈ joined.connected)).map joined.root

/-- What a run of the stage is given: its source, the mentions of its evidence, and the rows it reads. -/
structure RunInput where
  sourceId : String
  workId : Option String := none
  continuityId : Option String := none
  evidence : List SourceMention
  rows : List ScalarRow
  alignments : List AlignedPair := []

/-- `ResolutionInputBuilder.build`, with the arguments the stage gives it. -/
def RunInput.build (x : RunInput) : Except PyError ResolutionInput := do
  let ids := x.evidence.map (·.mentionId)
  let committed ← existingCanonicalAssignments x.rows ids
  let correspondence ← acceptedCorrespondence x.rows x.alignments ids
  let human ← humanSupport x.rows ids
  let seeded (m : SourceMention) : SourceMention :=
    match nonEmpty (((human m.mentionId).or (correspondence m.mentionId)).or (committed m.mentionId)) with
    | some ref => { m with entityId := some ref }
    | none => m
  return {
    sourceId := x.sourceId
    mentions := sortedById ((mentionById x.evidence).map seeded)
    generatedBy := [("stage", .str "ENTITY_RESOLUTION"), ("analyzer", .str "umd-entity-resolution@1"),
      ("config_digest", .str "umd-entity-resolution@1")]
    workId := x.workId
    continuityId := x.continuityId
    sourceIds := (nonEmpty (some x.sourceId)).toList }

section
variable (u : Unicode) (setOrder : List String → List String) (policy : CandidatePolicy) (floor : ℚ) (float : ℚ → Number)
  (refused : SourceMention → Option PyError)

/-- The batch of a run. -/
def RunInput.batch (x : RunInput) : Except PyError ResolutionBatch :=
  x.build.bind fun input => resolveMentions u setOrder policy floor (input.task [])

/-- A run of the stage that completes. -/
def resolutionRun (t : Tables) (x : RunInput) : Option Tables :=
  match x.batch u setOrder policy floor with
  | .error _ => none
  | .ok batch =>
    match applyResolution float refused t batch with
    | (t', .ok ()) => some t'
    | (_, .error _) => none

end

end Umd.Resolution
