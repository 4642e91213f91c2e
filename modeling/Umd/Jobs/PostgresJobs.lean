import Umd.Lib.Uuid
import Umd.Jobs.Service
import Umd.Jobs.StageRuns
/-!
# The Postgres job repository

Job aggregates live in the `job` table; what a job's stages are at is folded
from the `stage_run` rows that carry its id. A complete row outranks every other
row of its stage (`stateOf_complete_iff`).
-/

namespace Umd.Jobs

open Umd.Lib

/-- The `job` table and the tables of the executor. -/
structure Database where
  jobs : String → Option JobRecord := fun _ => none
  tables : RunStore := {}

/-- `_STATUS_RANK.get(status, 0)` -/
def statusRank : StageStatus → Nat
  | .complete => 5
  | .quarantined => 4
  | .claimed => 3
  | .cancelled => 2
  | .pending => 1
  | .failed | .queued => 0

namespace Database

/-- `UPDATE job ... WHERE id = jobId` -/
def change (db : Database) (jobId : String) (f : JobRecord → JobRecord) : Database :=
  { db with jobs := fun id => if id = jobId then (db.jobs id).map f else db.jobs id }

/-- A source id as `get` gives it back: in dashed form. -/
def storedSource : Option String → Except PyError (Option String)
  | none => .ok none
  | some s =>
    match pgUuid s with
    | some u => .ok (some u.dashed)
    | none => .error .valueError

/-- `create`: a job that is there stays as it is. -/
def create (db : Database) (jobId : String) (sourceId : Option String) (dagUniverse : String) (request : Dict) :
    Except PyError (Database × JobRecord) :=
  match storedSource sourceId with
  | .error e => .error e
  | .ok sourceId =>
    match db.jobs jobId with
    | some job => .ok (db, job)
    | none =>
      let job : JobRecord := { id := jobId, sourceId, dagUniverse, status := .pending, request }
      .ok ({ db with jobs := fun id => if id = jobId then some job else db.jobs id }, job)

def setExecution (db : Database) (jobId : String) (stages : Finset Stage) (causation : Option String) :
    Except PyError Database :=
  match db.jobs jobId with
  | none => .error .keyError
  | some _ =>
    .ok (db.change jobId fun job => { job with request := InMemoryJobs.executionRequest job.request stages causation })

/-! ## `stage_states` -/

/-- `set(request.get("expected_stages", []))`, which asks for names. -/
def expectedNames (request : Dict) : List Json :=
  match request.get? "expected_stages" with
  | some (.arr xs) => xs
  | some (.obj d) => (Dict.keys d).map .str
  | _ => []

def executionCausation (request : Dict) : Option String := (request.get "execution_causation").str?

/-- The rows `stage_states` reads: of the job, and where a causation is recorded, those of an expected stage only
with that causation. -/
def isRead (jobId : String) (request : Dict) (r : StageRun) : Bool :=
  r.jobId = jobId &&
    match executionCausation request with
    | none => true
    | some causation =>
      (expectedNames request).all (fun name => !name.isStr r.stageName.name) ||
        (r.inputManifest.get "rerun_causation").isStr causation

/-- One turn of the fold: the row wins where its stage has none yet, or one of lower rank. -/
def foldRow (states : List StageState) (r : StageRun) : List StageState :=
  let state : StageState :=
    { stageName := r.stageName, status := r.status, idempotencyKey := some r.idempotencyKey, attempts := 1 }
  match states.find? fun s => s.stageName = r.stageName with
  | none => states ++ [state]
  | some current =>
    if statusRank current.status < statusRank r.status then
      states.map fun s => if s.stageName = r.stageName then state else s
    else states

def stageStates (db : Database) (jobId : String) : List StageState :=
  let request := match db.jobs jobId with
    | some job => job.request
    | none => []
  (db.tables.runs.filter (isRead jobId request)).foldl foldRow []

/-- `PostgresJobRepository`; `record_stage` does nothing, as the rows are the executor's. -/
def store : JobStore Database where
  create := create
  updateStatus := fun db jobId status error =>
    db.change jobId fun job => { job with status := status, error := error.or job.error }
  setCancelledStages := fun db jobId stages => db.change jobId fun job => { job with cancelledStages := stages }
  get := fun db jobId => db.jobs jobId
  stageStates := stageStates
  recordStage := fun db _ _ => db
  setExecution := setExecution

/-! ## What the fold finds -/

/-- The fold holds each stage once, and for a stage the highest status among the rows so far. -/
structure Folded (rows : List StageRun) (states : List StageState) : Prop where
  nodup : (states.map (·.stageName)).Nodup
  found : ∀ s ∈ states, ∃ r ∈ rows, r.stageName = s.stageName ∧ r.status = s.status
  highest : ∀ r ∈ rows, ∃ s ∈ states, s.stageName = r.stageName ∧ statusRank r.status ≤ statusRank s.status

theorem foldRow_folded {rows : List StageRun} {states : List StageState} (h : Folded rows states) (r : StageRun) :
    Folded (rows ++ [r]) (foldRow states r) := by
  unfold foldRow
  dsimp only
  split
  · rename_i hnone
    have hne : ∀ s ∈ states, s.stageName ≠ r.stageName := by simpa [List.find?_eq_none] using hnone
    refine ⟨?_, ?_, ?_⟩
    · rw [List.map_append, List.map_singleton, List.nodup_append]
      refine ⟨h.nodup, by simp, fun a ha b hb => ?_⟩
      obtain ⟨s, hs, rfl⟩ := List.mem_map.1 ha
      rw [List.mem_singleton.1 hb]
      exact hne s hs
    · intro s hs
      rcases List.mem_append.1 hs with hs | hs
      · obtain ⟨r', hr', hst⟩ := h.found s hs
        exact ⟨r', by simp [hr'], hst⟩
      · rw [List.mem_singleton.1 hs]
        exact ⟨r, by simp, rfl, rfl⟩
    · intro r' hr'
      rcases List.mem_append.1 hr' with hr' | hr'
      · obtain ⟨s, hs, hst⟩ := h.highest r' hr'
        exact ⟨s, by simp [hs], hst⟩
      · rw [List.mem_singleton.1 hr']
        exact ⟨_, List.mem_append_right _ (List.mem_singleton_self _), rfl, Nat.le_refl _⟩
  · rename_i current hfind
    have hmem := List.mem_of_find?_eq_some hfind
    have hstage : current.stageName = r.stageName := by simpa using List.find?_some hfind
    split
    · rename_i hlt
      refine ⟨?_, ?_, ?_⟩
      · rw [List.map_map]
        convert h.nodup using 1
        apply List.map_congr_left
        intro s _
        simp only [Function.comp_apply]
        split
        · rename_i hs; exact hs.symm
        · rfl
      · intro s hs
        obtain ⟨s', hs', rfl⟩ := List.mem_map.1 hs
        split
        · exact ⟨r, by simp, rfl, rfl⟩
        · obtain ⟨r', hr', hst⟩ := h.found s' hs'
          exact ⟨r', by simp [hr'], hst⟩
      · intro r' hr'
        by_cases hsame : r'.stageName = r.stageName
        · refine ⟨_, List.mem_map.2 ⟨current, hmem, rfl⟩, ?_, ?_⟩
          · rw [if_pos hstage]; exact hsame.symm
          · rw [if_pos hstage]
            rcases List.mem_append.1 hr' with hr' | hr'
            · obtain ⟨s, hs, hst, hle⟩ := h.highest r' hr'
              have := List.inj_on_of_nodup_map h.nodup hs hmem (by rw [hst, hsame, hstage])
              subst this
              exact hle.trans (Nat.le_of_lt hlt)
            · rw [List.mem_singleton.1 hr']
        · rcases List.mem_append.1 hr' with hr' | hr'
          · obtain ⟨s, hs, hst, hle⟩ := h.highest r' hr'
            refine ⟨s, List.mem_map.2 ⟨s, hs, ?_⟩, hst, hle⟩
            rw [if_neg (by rwa [hst])]
          · rw [List.mem_singleton.1 hr'] at hsame
            exact absurd rfl hsame
    · rename_i hle
      refine ⟨h.nodup, fun s hs => ?_, fun r' hr' => ?_⟩
      · obtain ⟨r', hr', hst⟩ := h.found s hs
        exact ⟨r', by simp [hr'], hst⟩
      · rcases List.mem_append.1 hr' with hr' | hr'
        · exact h.highest r' hr'
        · rw [List.mem_singleton.1 hr']
          exact ⟨current, hmem, hstage, Nat.le_of_not_lt hle⟩

theorem folded (rows : List StageRun) : Folded rows (rows.foldl foldRow []) := by
  induction rows using List.reverseRecOn with
  | nil => exact ⟨.nil, by simp, by simp⟩
  | append_singleton rows r ih =>
    rw [List.foldl_append]
    exact foldRow_folded ih r

/-- What a fold says of a stage is the status of one of its rows. -/
theorem stateOf_eq {rows : List StageRun} {states : List StageState} (h : Folded rows states) {stage : Stage}
    {status : StageStatus} :
    stateOf states stage = some status ↔ ∃ s ∈ states, s.stageName = stage ∧ s.status = status := by
  constructor
  · intro hs
    obtain ⟨s, hfind, hst⟩ := Option.map_eq_some_iff.1 hs
    exact ⟨s, by simpa using List.mem_of_find?_eq_some hfind, by simpa using List.find?_some hfind, hst⟩
  · rintro ⟨s, hs, hstage, rfl⟩
    have hsome : (states.reverse.find? fun s => s.stageName = stage) ≠ none := by
      simp only [ne_eq, List.find?_eq_none, List.mem_reverse, decide_eq_true_eq, not_forall]
      exact ⟨s, hs, not_not.2 hstage⟩
    obtain ⟨s', hfind⟩ := Option.ne_none_iff_exists'.1 hsome
    have hs' : s' ∈ states := by simpa using List.mem_of_find?_eq_some hfind
    have hst' : s'.stageName = stage := by simpa using List.find?_some hfind
    rw [stateOf, hfind, Option.map_some, List.inj_on_of_nodup_map h.nodup hs' hs (hst'.trans hstage.symm)]

/-- **A stage folds to complete exactly where one of its rows is complete.** -/
theorem stateOf_complete_iff {rows : List StageRun} {stage : Stage} :
    stateOf (rows.foldl foldRow []) stage = some .complete ↔
      ∃ r ∈ rows, r.stageName = stage ∧ r.status = .complete := by
  have h := folded rows
  rw [stateOf_eq h]
  constructor
  · rintro ⟨s, hs, rfl, hst⟩
    obtain ⟨r, hr, hstage, hstatus⟩ := h.found s hs
    exact ⟨r, hr, hstage, hstatus.trans hst⟩
  · rintro ⟨r, hr, rfl, hst⟩
    obtain ⟨s, hs, hstage, hle⟩ := h.highest r hr
    refine ⟨s, hs, hstage, ?_⟩
    -- no status but `complete` has rank five
    rw [hst] at hle
    cases hstatus : s.status <;> rw [hstatus] at hle <;> simp [statusRank] at hle ⊢

end Database

end Umd.Jobs
