import Umd.Jobs.Invalidation
import Umd.Jobs.Job
/-!
# The job command facade

Each operation of `JobService` that schedules work is a call of `run_graph` it
prepares (`submitCall`, `retryCall`, ...) and what it does with the events that
come back. The order in which a Python set gives its elements is a parameter.
-/

namespace Umd.Jobs

open Umd.Lib

/-- The order in which iterating a set gives its elements. -/
structure SetOrder (α : Type) [DecidableEq α] where
  list : Finset α → List α
  nodup : ∀ s, (list s).Nodup
  toFinset_list : ∀ s, (list s).toFinset = s

theorem SetOrder.mem_list {α : Type} [DecidableEq α] (order : SetOrder α) {s : Finset α} {a : α} :
    a ∈ order.list s ↔ a ∈ s := by
  rw [← List.mem_toFinset, order.toFinset_list]

structure StageRunEvent where
  stage : Stage
  status : StageStatus
  replayed : Bool := false
deriving DecidableEq, Repr

/-- The arguments of `run_graph`, less the work registry. -/
structure RunRequest where
  jobId : String
  sourceId : Option String
  dagUniverse : String
  stages : List Stage
  rerunCausation : Option String := none

/-- The arguments of `SemanticCommandService.invalidate`. -/
structure Invalidation where
  subjectRef : String
  predicate : Option String
  cause : String
  scope : String
  stage : Stage
  refs : List String
  correlationId : String

/-- `JobService` with the planner and the lineage of its defaults; `runner` has the operation's work registry. -/
structure JobService (σ : Type) where
  store : JobStore σ
  runner : RunRequest → σ → σ × Except PyError (List StageRunEvent)
  commands : Option (Invalidation → σ → Except PyError σ) := none

/-- An operation that schedules work, with its arguments. -/
inductive Operation where
  | submit (jobId : String) (sourceId : Option String) (dagUniverse : String) (request : Dict)
  | retry (jobId dagUniverse : String) (stage : Option Stage)
  | rerunStage (sourceId : String) (stage : Stage) (scope causation dagUniverse jobId : String)
  | rerunSource (sourceId scope causation dagUniverse jobId : String)
  | invalidate (subjectRef : String) (predicate : Option String) (cause scope : String) (stage : Stage)
      (sourceId dagUniverse jobId : String) (refs : List String)

/-! ## Policies -/

/-- `_AUTHORITY_PREDICATES`. -/
def authorityPredicates : List String := ["speaker", "entity", "character", "canonical_entity", "pronunciation"]

/-- `str.lower`, as far as it can give one of them: beside `A` to `Z` only the Kelvin sign has an ASCII lower case. -/
def lower (s : String) : String := s.map fun c => if c = '\u212a' then 'k' else c.toLower

def projectionPauseReason (eventType subjectRef : String) (predicate : Option String) (refs : List String) :
    Option String :=
  if eventType ∈ ["OverrideApplied", "CorrectionApplied", "EntityResolved", "Invalidated"] ∧
      predicate.all fun p => lower p ∈ authorityPredicates then
    let subject := if subjectRef ≠ "" then subjectRef else refs.headD "?"
    some ("authority change on " ++ subject ++ "; projections paused until reconciled state settles")
  else none

/-- `set(rec.request.get("expected_stages", STAGE_ORDER))`: a list or object in a set is a `TypeError`. -/
def expectedStages (request : Dict) : Except PyError (List Json) :=
  match request.get? "expected_stages" with
  | none => .ok (stageOrder.map fun s => .str s.name)
  | some (.arr xs) =>
    if xs.all fun x => match x with | .arr _ | .obj _ => false | _ => true then .ok xs else .error .typeError
  | some (.str s) => .ok (s.toList.map fun c => .str (String.singleton c))
  | some (.obj d) => .ok ((Dict.keys d).map .str)
  | some _ => .error .typeError

/-- `_derive_status`. -/
def deriveStatus (rec : JobRecord) (states : List StageState) : Except PyError JobStatus :=
  if rec.status ∈ [JobStatus.cancelled, .paused, .failed] then .ok rec.status else do
  let expected ← expectedStages rec.request
  if expected.isEmpty ∨ states.isEmpty then return rec.status
  let statuses := expected.map fun name => stageOrder.findSome? fun s =>
    if name.isStr s.name then stateOf states s else none
  if none ∈ statuses then return .running
  if some .quarantined ∈ statuses ∨ some .failed ∈ statuses then return .failed
  if statuses.all (· = some .complete) then return .complete
  return .running

/-! ## The calls of `run_graph` -/

/-- `_closure`: the stage and its transitive descendants. -/
def closure (stage : Stage) : List Stage :=
  stage :: (plan ("cancel:" ++ stage.name) "SOURCE" (some stage) stageDependents).stages

/-- `states.get(s, "pending") != "complete"` -/
def isOpen (states : List StageState) (stage : Stage) : Bool := (stateOf states stage).getD .pending ≠ .complete

/-- The stages `retry` lists for one stage: the open ones of a set, or the whole set. -/
def retryTargets (order : SetOrder Stage) (states : List StageState) (stage : Stage) : List Stage :=
  let closure := order.list (closure stage).toFinset
  let targets := closure.filter (isOpen states)
  if targets.isEmpty then closure else targets

variable {σ : Type}

namespace JobService

/-- `set_execution` before a call of `run_graph`. -/
def schedule (svc : JobService σ) (s : σ) (req : RunRequest) : σ × Except PyError (Option RunRequest) :=
  match svc.store.setExecution s req.jobId req.stages.toFinset req.rerunCausation with
  | .error e => (s, .error e)
  | .ok s => (s, .ok (some req))

/-- The same where nothing is scheduled for an empty list. -/
def scheduleSome (svc : JobService σ) (s : σ) (req : RunRequest) : σ × Except PyError (Option RunRequest) :=
  if req.stages.isEmpty then (s, .ok none) else svc.schedule s req

def submitCall (svc : JobService σ) (s : σ) (job : JobRecord) (sourceId : Option String) (dagUniverse : String) :
    σ × Except PyError (Option RunRequest) :=
  if job.status = .pending then
    svc.schedule (svc.store.updateStatus s job.id .running none)
      { jobId := job.id, sourceId, dagUniverse, stages := stageOrder }
  else (s, .ok none)

def retryCall (svc : JobService σ) (order : SetOrder Stage) (s : σ) (rec : JobRecord) (jobId dagUniverse : String)
    (stage : Option Stage) : σ × Except PyError (Option RunRequest) :=
  let states := svc.store.stageStates s jobId
  let s := svc.store.updateStatus s jobId .running none
  let (cancelled, targets) : Finset Stage × List Stage :=
    match stage with
    | some stage => (rec.cancelledStages \ (closure stage).toFinset, retryTargets order states stage)
    | none => (∅, stageOrder.filter (isOpen states))
  let s := svc.store.setCancelledStages s jobId cancelled
  (s, .ok (if targets.isEmpty then none else some { jobId, sourceId := rec.sourceId, dagUniverse, stages := targets }))

/-- The targets of `rerun_stage` and their call. -/
def rerunStageCall (svc : JobService σ) (s : σ) (sourceId : String) (stage : Stage)
    (scope causation dagUniverse jobId : String) : StageTargets Stage × (σ × Except PyError (Option RunRequest)) :=
  let targets := plan causation scope (some stage) stageDependents
  (targets, svc.scheduleSome s
    { jobId, sourceId := some sourceId, dagUniverse, stages := targets.stages, rerunCausation := some causation })

/-- The targets `rerun_source` reports are those of no stage; what it schedules is every stage after `INGEST`. -/
def rerunSourceCall (svc : JobService σ) (s : σ) (sourceId scope causation dagUniverse jobId : String) :
    StageTargets Stage × (σ × Except PyError (Option RunRequest)) :=
  (plan causation scope none stageDependents, svc.schedule s
    { jobId, sourceId := some sourceId, dagUniverse, stages := stageOrder.filter (· ≠ .ingest)
      rerunCausation := some causation })

def invalidateCall (svc : JobService σ) (s : σ) (inv : Invalidation) (sourceId dagUniverse : String) :
    StageTargets Stage × (σ × Except PyError (Option RunRequest)) :=
  let causation := "invalidate:" ++ inv.cause
  let targets := plan causation inv.scope (some inv.stage) stageDependents
  let req : RunRequest :=
    { jobId := inv.correlationId, sourceId := some sourceId, dagUniverse, stages := targets.stages
      rerunCausation := some causation }
  (targets, match svc.commands with
    | none => svc.scheduleSome s req
    | some command =>
      match command inv s with
      | .error e => (s, .error e)
      | .ok s => svc.scheduleSome s req)

/-! ## The operations -/

/-- `_persist_queued`. -/
def persistQueued (svc : JobService σ) (s : σ) (jobId : String) (events : List StageRunEvent) : σ :=
  events.foldl (fun s ev =>
    if ev.status = .queued then svc.store.recordStage s jobId { stageName := ev.stage, status := .queued } else s) s

def status (svc : JobService σ) (s : σ) (jobId : String) : Except PyError JobStatus :=
  match svc.store.get s jobId with
  | none => .error .keyError
  | some rec => deriveStatus rec (svc.store.stageStates s jobId)

/-- `_refresh_status`. -/
def refreshStatus (svc : JobService σ) (s : σ) (jobId : String) : σ × Except PyError Unit :=
  match svc.status s jobId with
  | .error e => (s, .error e)
  | .ok status => (svc.store.updateStatus s jobId status none, .ok ())

/-- `run_graph` where a call was prepared, and `_persist_queued` of its events. -/
def runCall (svc : JobService σ) : σ × Except PyError (Option RunRequest) → σ × Except PyError Unit
  | (s, .error e) => (s, .error e)
  | (s, .ok none) => (s, .ok ())
  | (s, .ok (some req)) =>
    match svc.runner req s with
    | (s, .error e) => (s, .error e)
    | (s, .ok events) => (svc.persistQueued s req.jobId events, .ok ())

/-- Go on where nothing was raised. -/
def andThen {β : Type} (r : σ × Except PyError Unit) (f : σ → σ × Except PyError β) : σ × Except PyError β :=
  match r with
  | (s, .error e) => (s, .error e)
  | (s, .ok ()) => f s

def submit (svc : JobService σ) (s : σ) (jobId : String) (sourceId : Option String) (dagUniverse : String)
    (request : Dict) : σ × Except PyError JobRecord :=
  match svc.store.create s jobId sourceId dagUniverse request with
  | .error e => (s, .error e)
  | .ok (s, job) =>
    match svc.submitCall s job sourceId dagUniverse with
    | (s, .error e) => (s, .error e)
    | (s, .ok none) => (s, .ok ((svc.store.get s job.id).getD job))
    | (s, .ok (some req)) =>
      match svc.runner req s with
      | (s, .error e) => (svc.store.updateStatus s job.id .failed (some "submission failed"), .error e)
      | (s, .ok events) =>
        andThen (svc.refreshStatus (svc.persistQueued s job.id events) job.id) fun s =>
          (s, .ok ((svc.store.get s job.id).getD job))

def retry (svc : JobService σ) (order : SetOrder Stage) (s : σ) (jobId dagUniverse : String) (stage : Option Stage) :
    σ × Except PyError JobRecord :=
  match svc.store.get s jobId with
  | none => (s, .error .keyError)
  | some rec =>
    andThen (svc.runCall (svc.retryCall order s rec jobId dagUniverse stage)) fun s =>
    andThen (svc.refreshStatus s jobId) fun s => (s, .ok ((svc.store.get s jobId).getD rec))

def rerunStage (svc : JobService σ) (s : σ) (sourceId : String) (stage : Stage)
    (scope causation dagUniverse jobId : String) : σ × Except PyError (StageTargets Stage) :=
  let (targets, call) := svc.rerunStageCall s sourceId stage scope causation dagUniverse jobId
  andThen (svc.runCall call) fun s => andThen (svc.refreshStatus s jobId) fun s => (s, .ok targets)

def rerunSource (svc : JobService σ) (s : σ) (sourceId scope causation dagUniverse jobId : String) :
    σ × Except PyError (StageTargets Stage) :=
  let (targets, call) := svc.rerunSourceCall s sourceId scope causation dagUniverse jobId
  andThen (svc.runCall call) fun s => (s, .ok targets)

def invalidate (svc : JobService σ) (s : σ) (inv : Invalidation) (sourceId dagUniverse : String) :
    σ × Except PyError (StageTargets Stage × Option String) :=
  let (targets, call) := svc.invalidateCall s inv sourceId dagUniverse
  andThen (svc.runCall call) fun s =>
    (s, .ok (targets, projectionPauseReason "Invalidated" inv.subjectRef inv.predicate inv.refs))

/-- `cancel`, which schedules nothing. -/
def cancel (svc : JobService σ) (s : σ) (jobId : String) (stage : Option Stage) (reason : Option String) :
    σ × Except PyError JobRecord :=
  match svc.store.get s jobId with
  | none => (s, .error .keyError)
  | some rec =>
    let s := match stage with
      | none => svc.store.updateStatus s jobId .cancelled reason
      | some stage => svc.store.setCancelledStages s jobId (rec.cancelledStages ∪ (closure stage).toFinset)
    (s, .ok ((svc.store.get s jobId).getD rec))

/-- The call of `run_graph` an operation prepares, with the store it leaves. -/
def call (svc : JobService σ) (order : SetOrder Stage) (s : σ) : Operation → σ × Except PyError (Option RunRequest)
  | .submit jobId sourceId dagUniverse request =>
    match svc.store.create s jobId sourceId dagUniverse request with
    | .error e => (s, .error e)
    | .ok (s, job) => svc.submitCall s job sourceId dagUniverse
  | .retry jobId dagUniverse stage =>
    match svc.store.get s jobId with
    | none => (s, .error .keyError)
    | some rec => svc.retryCall order s rec jobId dagUniverse stage
  | .rerunStage sourceId stage scope causation dagUniverse jobId =>
    (svc.rerunStageCall s sourceId stage scope causation dagUniverse jobId).2
  | .rerunSource sourceId scope causation dagUniverse jobId =>
    (svc.rerunSourceCall s sourceId scope causation dagUniverse jobId).2
  | .invalidate subjectRef predicate cause scope stage sourceId dagUniverse jobId refs =>
    (svc.invalidateCall s { subjectRef, predicate, cause, scope, stage, refs, correlationId := jobId }
      sourceId dagUniverse).2

end JobService

end Umd.Jobs
