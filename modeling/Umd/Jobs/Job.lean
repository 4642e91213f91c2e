import Umd.Jobs.Dag
/-!
# Jobs

The job aggregate, the store contract, and the store backed by plain dicts.
-/

namespace Umd.Jobs

open Umd.Lib

inductive JobStatus where
  | pending
  | running
  | complete
  | failed
  | cancelled
  | paused
deriving DecidableEq, Repr

/-- What a `stage_run` row, a stage record or a runner event says of a stage. -/
inductive StageStatus where
  | claimed
  | complete
  | failed
  | quarantined
  | cancelled
  | pending
  | queued
deriving DecidableEq, Repr

structure StageState where
  stageName : Stage
  status : StageStatus
  idempotencyKey : Option String := none
  attempts : Nat := 0

structure JobRecord where
  id : String
  sourceId : Option String
  dagUniverse : String
  status : JobStatus
  request : Dict := []
  cancelledStages : Finset Stage := ∅
  error : Option String := none

/-- `{s.stage_name: s.status for s in states}.get(stage)` -/
def stateOf (states : List StageState) (stage : Stage) : Option StageStatus :=
  (states.reverse.find? fun s => s.stageName = stage).map (·.status)

/-- The methods of `JobStore` the service and the runner call. -/
structure JobStore (σ : Type) where
  create : σ → String → Option String → String → Dict → Except PyError (σ × JobRecord)
  updateStatus : σ → String → JobStatus → Option String → σ
  setCancelledStages : σ → String → Finset Stage → σ
  get : σ → String → Option JobRecord
  stageStates : σ → String → List StageState
  recordStage : σ → String → StageState → σ
  setExecution : σ → String → Finset Stage → Option String → Except PyError σ

/-- `sorted(stages)` as a request holds it. -/
def stageNames (stages : Finset Stage) : List Json := ((stages.image Stage.name).sort (· ≤ ·)).map .str

/-! ## `InMemoryJobStore` -/

structure InMemoryJobs where
  jobs : String → Option JobRecord := fun _ => none
  stages : String → List StageState := fun _ => []

namespace InMemoryJobs

/-- Change a job that is there. -/
def change (s : InMemoryJobs) (jobId : String) (f : JobRecord → JobRecord) : InMemoryJobs :=
  { s with jobs := fun id => if id = jobId then (s.jobs id).map f else s.jobs id }

def create (s : InMemoryJobs) (jobId : String) (sourceId : Option String) (dagUniverse : String) (request : Dict) :
    Except PyError (InMemoryJobs × JobRecord) :=
  match s.jobs jobId with
  | some existing =>
    -- a duplicate submission is the same job
    if existing.sourceId = sourceId ∧ existing.dagUniverse = dagUniverse then .ok (s, existing)
    else .error .valueError
  | none =>
    let job : JobRecord := { id := jobId, sourceId, dagUniverse, status := .pending, request }
    .ok ({ jobs := fun id => if id = jobId then some job else s.jobs id
           stages := fun id => if id = jobId then [] else s.stages id }, job)

def recordStage (s : InMemoryJobs) (jobId : String) (state : StageState) : InMemoryJobs :=
  { s with stages := fun id =>
      if id = jobId then (s.stages id).filter (fun st => st.stageName ≠ state.stageName) ++ [state] else s.stages id }

/-- `request["expected_stages"] = sorted(stages)`, and the causation put there or popped. -/
def executionRequest (request : Dict) (stages : Finset Stage) (causation : Option String) : Dict :=
  let request := request.set "expected_stages" (.arr (stageNames stages))
  match causation with
  | some c => request.set "execution_causation" (.str c)
  | none => request.filter fun f => f.1 ≠ "execution_causation"

def setExecution (s : InMemoryJobs) (jobId : String) (stages : Finset Stage) (causation : Option String) :
    Except PyError InMemoryJobs :=
  match s.jobs jobId with
  | none => .error .keyError
  | some _ => .ok (s.change jobId fun job => { job with request := executionRequest job.request stages causation })

/-- `InMemoryJobStore`. -/
def store : JobStore InMemoryJobs where
  create := create
  updateStatus := fun s jobId status error =>
    s.change jobId fun job => { job with status := status, error := error.or job.error }
  setCancelledStages := fun s jobId stages => s.change jobId fun job => { job with cancelledStages := stages }
  get := fun s jobId => s.jobs jobId
  stageStates := fun s jobId => s.stages jobId
  recordStage := recordStage
  setExecution := setExecution

end InMemoryJobs

end Umd.Jobs
