import Umd.Storage.Ledger
import Umd.Jobs.Job
import Umd.Jobs.Manifest
/-!
# The stage_run table

Claims, status marks, and the completion that updates the row in the
transaction of its ledger append. A row is addressed by its idempotency key,
which is as unique and as fixed as its id.
-/

namespace Umd.Jobs

open Umd.Lib Umd.Events Umd.Ledger

/-- A row of `stage_run`. -/
structure StageRun where
  idempotencyKey : Uuid
  jobId : String
  stageName : Stage
  sourceId : Option String
  segmentId : Option String
  status : StageStatus := .claimed
  inputManifest : Dict
  artifactRefs : List String := []
  evidenceRefs : List String := []
  configDigest : Option String
  createdAt : Nat

structure StageRunClaim where
  won : Bool
  idempotencyKey : Uuid
  stageName : Stage
  jobId : String

structure StageOutcome where
  artifactRefs : List String := []
  evidenceRefs : List String := []
deriving DecidableEq

/-- The tables the executor writes. -/
structure RunStore where
  ledger : Db := {}
  runs : List StageRun := []
  /-- `locator`, `reason` and `refs` of the quarantine sink. -/
  quarantine : List (String × String × List String) := []

/-- `SELECT ... WHERE idempotency_key = key` -/
def runOf (runs : List StageRun) (key : Uuid) : Option StageRun := runs.find? fun r => r.idempotencyKey = key

/-- What a row keeps of its claim through every update. -/
def StageRun.claimed (r : StageRun) : StageRun := { r with status := .claimed, artifactRefs := [], evidenceRefs := [] }

/-- `UPDATE stage_run ... WHERE id = claim.id` -/
def setRun (runs : List StageRun) (key : Uuid) (f : StageRun → StageRun) : List StageRun :=
  runs.map fun r => if r.idempotencyKey = key then f r else r

/-- The row a claim inserts. -/
def StageRun.of (key : Uuid) (m : StageManifest) (now : Nat) : StageRun where
  idempotencyKey := key
  jobId := m.jobId
  stageName := m.stageName
  sourceId := m.sourceId
  segmentId := m.segmentId
  inputManifest := m.inputManifest.set "dag_universe" (.str m.dagUniverse)
  configDigest := m.configDigest
  createdAt := now

/-- `StageRunRepository.claim`: insert, or return the claim that is there. -/
def claim (runs : List StageRun) (m : StageManifest) (now : Nat) : List StageRun × StageRunClaim :=
  let key := m.idempotencyKey
  match runOf runs key with
  | some existing =>
    (runs, { won := false, idempotencyKey := key, stageName := existing.stageName, jobId := existing.jobId })
  | none =>
    (runs ++ [.of key m now], { won := true, idempotencyKey := key, stageName := m.stageName, jobId := m.jobId })

/-- `_existing_run` -/
def existingRun (runs : List StageRun) (key : Uuid) : Option StageStatus := (runOf runs key).map (·.status)

/-- `_mark_run` -/
def markRun (runs : List StageRun) (key : Uuid) (status : StageStatus) : List StageRun :=
  setRun runs key fun r => { r with status := status }

/-! ## Completion -/

def texts (refs : List String) : Json := .arr (refs.map .str)

/-- The `StageCompleted` event of a run, with its `generated_by` in the payload. -/
def stageCompleted (m : StageManifest) (outcome : StageOutcome) (payloadBy generatedBy : Dict) : SemanticEvent where
  eventType := .StageCompleted
  payload :=
    [("source_id", Json.ofStr? m.sourceId), ("stage", .str m.stageName.name), ("status", .str "complete"),
     ("artifact_refs", texts outcome.artifactRefs), ("evidence_refs", texts outcome.evidenceRefs),
     ("generated_by", .obj payloadBy), ("job_id", .str m.jobId)]
  generatedBy := generatedBy

def completionKey (key : Uuid) : Uuid := deterministicUuid ("stage-complete:" ++ key)

/-- What `_complete` appends. -/
def completion (m : StageManifest) (key : Uuid) (outcome : StageOutcome) : Call :=
  keyed
    (stageCompleted m outcome
      ((m.toolVersions.set "idempotency_key" (.str key)).set "dag_universe" (.str m.dagUniverse))
      (m.toolVersions.set "idempotency_key" (.str key)))
    (completionKey key)

/-- `side_effects` of `_complete`. -/
def completeRun (runs : List StageRun) (key : Uuid) (outcome : StageOutcome) : List StageRun :=
  setRun runs key fun r =>
    { r with status := .complete, artifactRefs := outcome.artifactRefs, evidenceRefs := outcome.evidenceRefs }

/-- `complete_and_append` with the side effect of `_complete`. -/
def complete (s : RunStore) (m : StageManifest) (key : Uuid) (outcome : StageOutcome) :
    RunStore × Except AppendError CommitResult :=
  match append s.ledger (completion m key outcome) with
  | (db, .error e) => ({ s with ledger := db }, .error e)
  | (db, .ok result) =>
    ({ s with ledger := db, runs := completeRun s.runs key outcome }, .ok result)

def attributionKey (key : Uuid) (jobId : String) : Uuid := deterministicUuid ("replay-obs:" ++ key ++ ":" ++ jobId)

/-- What `_emit_replay_observation` appends. -/
def observation (m : StageManifest) (claim : StageRunClaim) (outcome : StageOutcome) : Call :=
  let key := claim.idempotencyKey
  let marker := m.toolVersions.update
    [("idempotency_key", .str key), ("dag_universe", .str m.dagUniverse), ("replayed", .bool true),
     ("attribution_key", .str (attributionKey key m.jobId)), ("canonical_job_id", .str claim.jobId),
     ("observing_job_id", .str m.jobId)]
  keyed (stageCompleted m outcome marker marker) (attributionKey key m.jobId)

/-- `committed_prior_refs`: the non-empty artifact refs of a job's complete rows before a stage, each once. -/
def committedPriorRefs (runs : List StageRun) (jobId : String) (upTo : Option Stage) : List String :=
  let limit := match upTo with
    | some stage => stage.index
    | none => stageOrder.length
  let rows := runs.filter fun r => r.jobId = jobId ∧ r.status = .complete ∧ r.stageName.index < limit
  (rows.flatMap (·.artifactRefs)).foldl (fun merged ref => if ref = "" ∨ ref ∈ merged then merged else merged ++ [ref]) []

/-! ## Look-ups after updates -/

theorem runOf_key {runs : List StageRun} {key : Uuid} {r : StageRun} (h : runOf runs key = some r) :
    r ∈ runs ∧ r.idempotencyKey = key :=
  ⟨List.mem_of_find?_eq_some h, by simpa using List.find?_some h⟩

theorem runOf_none {runs : List StageRun} {key : Uuid} : runOf runs key = none ↔ ∀ r ∈ runs, r.idempotencyKey ≠ key := by
  simp [runOf, List.find?_eq_none]

theorem runOf_setRun {runs : List StageRun} {key k : Uuid} {f : StageRun → StageRun}
    (hf : ∀ r, (f r).idempotencyKey = r.idempotencyKey) :
    runOf (setRun runs key f) k = if k = key then (runOf runs k).map f else runOf runs k := by
  induction runs with
  | nil => simp [runOf, setRun]
  | cons r runs ih =>
    simp only [runOf, setRun, List.map_cons, List.find?_cons] at ih ⊢
    by_cases hr : r.idempotencyKey = key
    · by_cases hk : k = key
      · subst hk; simp [hr, hf]
      · simp [hr, hf, Ne.symm hk, ih, hk]
    · by_cases hk : k = key
      · subst hk; simp [hr, ih]
      · by_cases hrk : r.idempotencyKey = k
        · simp [hrk, hk]
        · simp [hr, hrk, ih, hk]

theorem runOf_append {runs : List StageRun} {r : StageRun} {k : Uuid} :
    runOf (runs ++ [r]) k = (runOf runs k).or (if r.idempotencyKey = k then some r else none) := by
  simp only [runOf, List.find?_append, List.find?_singleton, decide_eq_true_eq]

theorem runOf_of (key : Uuid) (m : StageManifest) (now : Nat) : runOf [.of key m now] key = some (.of key m now) := by
  simp [runOf, StageRun.of]

theorem runOf_markRun {runs : List StageRun} {key k : Uuid} {status : StageStatus} :
    runOf (markRun runs key status) k =
      if k = key then (runOf runs k).map fun r => { r with status := status } else runOf runs k :=
  runOf_setRun fun _ => rfl

theorem runOf_completeRun {runs : List StageRun} {key k : Uuid} {outcome : StageOutcome} :
    runOf (completeRun runs key outcome) k =
      if k = key then (runOf runs k).map fun r =>
        { r with status := .complete, artifactRefs := outcome.artifactRefs, evidenceRefs := outcome.evidenceRefs }
      else runOf runs k :=
  runOf_setRun fun _ => rfl

theorem existingRun_markRun {runs : List StageRun} {key k : Uuid} {status : StageStatus} :
    existingRun (markRun runs key status) k =
      if k = key then (existingRun runs k).map fun _ => status else existingRun runs k := by
  rw [existingRun, runOf_markRun]
  split <;> simp [existingRun, Function.comp_def]

theorem existingRun_completeRun_ne {runs : List StageRun} {key k : Uuid} {outcome : StageOutcome} (h : k ≠ key) :
    existingRun (completeRun runs key outcome) k = existingRun runs k := by
  rw [existingRun, runOf_completeRun, if_neg h, existingRun]

theorem existingRun_append {runs : List StageRun} {r : StageRun} {k : Uuid} :
    existingRun (runs ++ [r]) k = (existingRun runs k).or (if r.idempotencyKey = k then some r.status else none) := by
  rw [existingRun, runOf_append, existingRun]
  cases runOf runs k with
  | some row => rfl
  | none => simp only [Option.none_or, Option.map_none]; split <;> rfl

/-- A row stays, whatever is set in it. -/
theorem setRun_kept {runs : List StageRun} {key k : Uuid} {f : StageRun → StageRun}
    (hf : ∀ r, (f r).idempotencyKey = r.idempotencyKey) (h : runOf runs k ≠ none) : runOf (setRun runs key f) k ≠ none := by
  rw [runOf_setRun hf]
  split
  · simpa using h
  · exact h

theorem setRun_claimed {runs : List StageRun} {key : Uuid} {f : StageRun → StageRun}
    (hf : ∀ r, (f r).claimed = r.claimed) : (setRun runs key f).map StageRun.claimed = runs.map StageRun.claimed := by
  rw [setRun, List.map_map]
  apply List.map_congr_left
  intro r _
  simp only [Function.comp_apply]
  split
  · exact hf r
  · rfl

theorem claim_free {runs : List StageRun} {m : StageManifest} {now : Nat} (h : runOf runs m.idempotencyKey = none) :
    claim runs m now = (runs ++ [.of m.idempotencyKey m now],
      { won := true, idempotencyKey := m.idempotencyKey, stageName := m.stageName, jobId := m.jobId }) := by
  simp only [claim, h]

theorem claim_held {runs : List StageRun} {m : StageManifest} {now : Nat} {row : StageRun}
    (h : runOf runs m.idempotencyKey = some row) :
    claim runs m now =
      (runs, { won := false, idempotencyKey := m.idempotencyKey, stageName := row.stageName, jobId := row.jobId }) := by
  simp only [claim, h]

theorem claim_key {runs : List StageRun} {m : StageManifest} {now : Nat} :
    (claim runs m now).2.idempotencyKey = m.idempotencyKey := by
  unfold claim
  dsimp only
  split <;> rfl

/-! ## What can be committed -/

/-- A completion of a source's stage is a valid event. -/
theorem stageCompleted_prepares {m : StageManifest} {o : StageOutcome} {payloadBy by' : Dict} {source : String}
    (h : m.sourceId = some source) : ∃ pe, (stageCompleted m o payloadBy by').prepare = .ok pe := by
  have htexts : ∀ refs, Schema.valid .strings (texts refs) = true := fun refs => by
    simp [texts, Schema.strings, Schema.valid]
  have hjob : Schema.valid Umd.Events.str? (.str m.jobId) = true := rfl
  have hvalid : validatePayload .StageCompleted 1 (stageCompleted m o payloadBy by').payload = .ok () := by
    simp only [validatePayload, loadSchema, stageCompleted, h, Json.ofStr?]
    refine if_pos ?_
    simp [Schema.valid, Schema.validProps, Dict.get?, Dict.keys, htexts, hjob]
  have hprepare : (stageCompleted m o payloadBy by').prepare =
      (validatePayload .StageCompleted 1 (stageCompleted m o payloadBy by').payload).bind fun _ =>
      (validatePayload .StageCompleted 1 (stageCompleted m o payloadBy by').payload).bind fun _ => .ok _ := rfl
  rw [hprepare, hvalid]
  exact ⟨_, rfl⟩

/-- It is refused for nothing else, so it commits whatever the ledger holds. -/
theorem stageCompleted_commits {m : StageManifest} {o : StageOutcome} {payloadBy by' : Dict} {source : String}
    (h : m.sourceId = some source) (db : Db) (key : Uuid) :
    ∃ db' result, append db (keyed (stageCompleted m o payloadBy by') key) = (db', .ok result) := by
  obtain ⟨pe, hpe⟩ := @stageCompleted_prepares m o payloadBy by' source h
  unfold append
  simp only [keyed, List.isEmpty_cons, Bool.false_eq_true, if_false, Option.bind_some]
  cases hk : seqOfKey db.events key with
  | some n => exact ⟨_, _, rfl⟩
  | none =>
    have hfree : ((insertKey { events := [⟨0, stageCompleted m o payloadBy by'⟩], idempotencyKey := some key }
        ⟨0, stageCompleted m o payloadBy by'⟩).bind (seqOfKey db.events)) = none := by
      simp [insertKey, hk]
    simp only [checkTail, prepareAll, hpe, Except.map, List.zip_cons_cons, List.zip_nil_right, insertAll, insertRow, hfree]
    exact ⟨_, _, rfl⟩

end Umd.Jobs
