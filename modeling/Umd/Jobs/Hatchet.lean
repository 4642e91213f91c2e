import Umd.Jobs.Execution
import Umd.Jobs.PostgresJobs
/-!
# The Hatchet callbacks

A workflow run triggers one task for every stage. A delivery of a task checks
its job, looks up the evidence of its stage in the rows of the lineage, one
dependency after another, and runs the executor. Each look-up and each
transaction is a step, so any number of deliveries of any number of runs can be
interleaved. `Serves` says once what a step does.
-/

namespace Umd.Jobs

open Umd.Lib Umd.Events Umd.Reducer

/-- The manifest `submit_workflow_runs` gives the task of a stage; only selected stages carry the causation. -/
def RunRequest.manifest (req : RunRequest) (stage : Stage) : StageManifest :=
  manifestFor req.jobId req.sourceId req.dagUniverse stage [] (if stage ∈ req.stages then req.rerunCausation else none)

/-! ## The evidence of a stage -/

/-- What the look-up is keyed by, beside the dependency. -/
structure LineageId where
  source : Option UuidValue
  dagUniverse : String
  segment : Option UuidValue
deriving DecidableEq

def StageManifest.lineage (m : StageManifest) : LineageId where
  source := m.sourceId.bind pyUuid
  dagUniverse := m.dagUniverse
  segment := m.segmentId.bind pyUuid

/-- `uuid.UUID` reads the ids. -/
def StageManifest.hasUuids (m : StageManifest) : Bool :=
  (m.sourceId.all fun s => (pyUuid s).isSome) && m.segmentId.all fun s => (pyUuid s).isSome

/-- The row belongs to the lineage; its ids are UUID columns. -/
def StageRun.isOf (lineage : LineageId) (r : StageRun) : Bool :=
  r.sourceId.bind pgUuid = lineage.source && (r.inputManifest.get "dag_universe").isStr lineage.dagUniverse &&
    decide (r.segmentId.bind pgUuid = lineage.segment)

/-- The rows of one stage of a lineage. -/
def stageRows (runs : List StageRun) (lineage : LineageId) (stage : Stage) : List StageRun :=
  runs.filter fun r => r.isOf lineage && r.stageName = stage

def completeRows (runs : List StageRun) (lineage : LineageId) (stage : Stage) : List StageRun :=
  (stageRows runs lineage stage).filter fun r => r.status = .complete

/-- `ORDER BY created_at DESC, idempotency_key DESC` -/
def newestFirst (r r' : StageRun) : Prop := toLex (r'.createdAt, r'.idempotencyKey) ≤ toLex (r.createdAt, r.idempotencyKey)

instance : DecidableRel newestFirst := fun _ _ => inferInstanceAs (Decidable (_ ≤ _))

/-- What the look-up of one dependency finds. -/
inductive Selected where
  | missing
  | ambiguous
  | row (r : StageRun)

/-- The `SELECT` of one dependency and the checks on what it gives. -/
def select (runs : List StageRun) (lineage : LineageId) (dep : Stage) : Selected :=
  match ((completeRows runs lineage dep).insertionSort newestFirst).take 2 with
  | r :: r' :: _ => if r.createdAt = r'.createdAt then .ambiguous else .row r
  | [r] => .row r
  | [] => .missing

/-- `sorted(merged)`: the non-empty refs, each once. -/
def mergedRefs (refs : List String) : List String :=
  sortedRefs (refs.foldl (fun merged ref => if ref = "" ∨ ref ∈ merged then merged else merged ++ [ref]) [])

/-- `manifest.evidence_refs = refs` -/
def StageManifest.withRefs (m : StageManifest) (refs : List String) : StageManifest := { m with evidenceRefs := refs }

/-- `manifest.evidence_refs = store.canonical_evidence_refs(...)`, with the rows it selected. -/
def StageManifest.withEvidence (m : StageManifest) (read : List StageRun) : StageManifest :=
  m.withRefs (mergedRefs (read.flatMap (·.evidenceRefs)))

/-! ## What the look-up finds -/

instance : Std.Total newestFirst := ⟨fun _ _ => le_total _ _⟩

instance : IsTrans StageRun newestFirst := ⟨fun _ _ _ h h' => h'.trans h⟩

theorem createdAt_le {r r' : StageRun} (h : newestFirst r r') : r'.createdAt ≤ r.createdAt := by
  rcases (Prod.Lex.toLex_le_toLex).1 h with hlt | heq
  · exact Nat.le_of_lt hlt
  · exact Nat.le_of_eq heq.1

theorem mem_stageRows {runs : List StageRun} {lineage : LineageId} {stage : Stage} {r : StageRun} :
    r ∈ stageRows runs lineage stage ↔ r ∈ runs ∧ r.isOf lineage = true ∧ r.stageName = stage := by
  simp [stageRows]

theorem mem_completeRows {runs : List StageRun} {lineage : LineageId} {stage : Stage} {r : StageRun} :
    r ∈ completeRows runs lineage stage ↔ r ∈ stageRows runs lineage stage ∧ r.status = .complete := by
  simp [completeRows]

/-- The selected row is newer than every other. -/
theorem select_row {runs : List StageRun} {lineage : LineageId} {dep : Stage} {r : StageRun}
    (h : select runs lineage dep = .row r) :
    r ∈ completeRows runs lineage dep ∧ ∀ r' ∈ completeRows runs lineage dep, r' = r ∨ r'.createdAt < r.createdAt := by
  have hmem : ∀ r', r' ∈ completeRows runs lineage dep ↔ r' ∈ (completeRows runs lineage dep).insertionSort newestFirst :=
    fun r' => (List.mem_insertionSort newestFirst).symm
  have hsorted := List.pairwise_insertionSort newestFirst (completeRows runs lineage dep)
  unfold select at h
  simp only [hmem]
  generalize (completeRows runs lineage dep).insertionSort newestFirst = rows at h hsorted
  match rows with
  | [] => cases h
  | [r₁] =>
    cases h
    exact ⟨by simp, fun r' hr' => .inl (List.mem_singleton.1 hr')⟩
  | r₁ :: r₂ :: rows =>
    simp only [List.take_succ_cons, List.take_zero] at h
    split at h
    · cases h
    · rename_i hne
      cases h
      obtain ⟨hfirst, hrest⟩ := List.pairwise_cons.1 hsorted
      have hsecond : r₂.createdAt < r.createdAt := by
        have := createdAt_le (hfirst r₂ (by simp))
        omega
      refine ⟨by simp, fun r' hr' => ?_⟩
      rcases List.mem_cons.1 hr' with rfl | hr'
      · exact .inl rfl
      · right
        rcases List.mem_cons.1 hr' with rfl | hr'
        · exact hsecond
        · have := createdAt_le ((List.pairwise_cons.1 hrest).1 r' hr')
          omega

theorem select_single {runs : List StageRun} {lineage : LineageId} {dep : Stage} {r : StageRun}
    (h : completeRows runs lineage dep = [r]) : select runs lineage dep = .row r := by
  rw [select, h]
  rfl

theorem select_missing {runs : List StageRun} {lineage : LineageId} {dep : Stage} (h : select runs lineage dep = .missing) :
    completeRows runs lineage dep = [] := by
  have hlength := List.length_insertionSort newestFirst (completeRows runs lineage dep)
  unfold select at h
  generalize (completeRows runs lineage dep).insertionSort newestFirst = rows at h hlength
  match rows with
  | [] => exact List.length_eq_zero_iff.1 hlength.symm
  | [_] => cases h
  | r₁ :: r₂ :: rows =>
    simp only [List.take_succ_cons, List.take_zero] at h
    split at h <;> cases h

theorem select_ambiguous {runs : List StageRun} {lineage : LineageId} {dep : Stage}
    (h : select runs lineage dep = .ambiguous) : 1 < (completeRows runs lineage dep).length := by
  rw [← List.length_insertionSort newestFirst]
  unfold select at h
  generalize (completeRows runs lineage dep).insertionSort newestFirst = rows at h
  match rows with
  | [] | [_] => cases h
  | r₁ :: r₂ :: rows => simp

theorem select_congr {runs runs' : List StageRun} {lineage : LineageId} {dep : Stage}
    (h : completeRows runs lineage dep = completeRows runs' lineage dep) : select runs lineage dep = select runs' lineage dep := by
  rw [select, select, h]

/-! ## The callback -/

inductive HandlerError where
  /-- `uuid.UUID` does not read an id. -/
  | value
  /-- `MissingRequiredEvidenceError` -/
  | missing (stage dep : Stage)
  /-- `AmbiguousRequiredEvidenceError` -/
  | ambiguous (stage dep : Stage)
  /-- `ConfigurationError` -/
  | configuration (stage : Stage)
  | executor (e : ExecError)
deriving DecidableEq

/-- The texts of the errors the look-up and the callback raise themselves. -/
def HandlerError.text : HandlerError → Option String
  | .missing stage dep =>
    some ("stage " ++ stage.name ++ " requires upstream " ++ dep.name ++
      " but no COMPLETE record exists for the current lineage")
  | .ambiguous stage dep =>
    some ("stage " ++ stage.name ++ " upstream " ++ dep.name ++
      " has two COMPLETE records tied at the current-lineage timestamp; cannot select uniquely")
  | .configuration stage =>
    some ("no stage work registered for " ++ stage.name ++
      " (absent stage = configuration failure, never fake completion)")
  | .value | .executor _ => none

/-- `_flat_ack` -/
structure Ack where
  state : StageStatus
  replayed : Bool
  attempts : Nat := 0
  completionSeq : Option Nat := none
  stage : Stage
  jobId : String
  sourceId : String
  dagUniverse : String

def flatAck (m : StageManifest) (state : StageStatus) (replayed : Bool) : Ack where
  state := state
  replayed := replayed
  stage := m.stageName
  jobId := m.jobId
  sourceId := m.sourceId.getD ""
  dagUniverse := m.dagUniverse

def recordAck (m : StageManifest) (record : StageRunRecord) : Ack :=
  { flatAck m record.state record.replayed with attempts := record.attempts, completionSeq := record.completionSeq }

/-- Where a delivery of a task stands. -/
inductive Handler where
  | idle
  /-- The dependencies still to be looked up, and the rows found for the others. -/
  | reading (todo : List Stage) (read : List StageRun)
  | running (read : List StageRun) (p : Phase)
  | acked (ack : Ack)
  | raised (e : HandlerError)
  | crashed

/-- The job is cancelled, or the stage is in it. -/
def Database.skips (db : Database) (m : StageManifest) : Bool :=
  match db.jobs m.jobId with
  | some job => job.status = .cancelled || job.status = .paused || m.stageName ∈ job.cancelledStages
  | none => false

namespace Handler

/-- The callback ends with the call of the executor. -/
def ofPhase (m : StageManifest) (read : List StageRun) : Phase → Handler
  | .returned record => .acked (recordAck m record)
  | .raised e => .raised (.executor e)
  | .crashed => .crashed
  | p => .running read p

/-- One step of `handler`, with the stages that have work and the attempts of the executor. -/
def step (registered : Stage → Bool) (max : Nat) (m : StageManifest) (db : Database) : Handler → Cue → Option (Database × Handler)
  | .idle, .next _ =>
    if db.skips m then some (db, .acked (flatAck m .cancelled true))
    else if m.stageName.dependencies ≠ [] ∧ m.hasUuids = false then some (db, .raised .value)
    else some (db, .reading m.stageName.dependencies [])
  | .reading (dep :: todo) read, .next _ =>
    match select db.tables.runs m.lineage dep with
    | .missing => some (db, .raised (.missing m.stageName dep))
    | .ambiguous => some (db, .raised (.ambiguous m.stageName dep))
    | .row r => some (db, .reading todo (read ++ [r]))
  | .reading [] read, .next _ =>
    if registered m.stageName then some (db, .running read .start) else some (db, .raised (.configuration m.stageName))
  | .reading _ _, .crash => some (db, .crashed)
  | .running read p, cue =>
    (p.step max (m.withEvidence read) db.tables cue).map fun r =>
      ({ db with tables := r.1 }, ofPhase (m.withEvidence read) read r.2)
  | _, _ => none

end Handler

/-- A step of one callback, by what it does. -/
inductive Serves (registered : Stage → Bool) (max : Nat) (m : StageManifest) (db : Database) :
    Handler → Cue → Database → Handler → Prop
  | skip {now : Nat} (skips : db.skips m = true) :
      Serves registered max m db .idle (.next now) db (.acked (flatAck m .cancelled true))
  | invalid {now : Nat} (unread : m.hasUuids = false) : Serves registered max m db .idle (.next now) db (.raised .value)
  | enter {now : Nat} (reads : m.stageName.dependencies = [] ∨ m.hasUuids = true) :
      Serves registered max m db .idle (.next now) db (.reading m.stageName.dependencies [])
  | missing {dep : Stage} {todo : List Stage} {read : List StageRun} {now : Nat}
      (none : select db.tables.runs m.lineage dep = .missing) :
      Serves registered max m db (.reading (dep :: todo) read) (.next now) db (.raised (.missing m.stageName dep))
  | ambiguous {dep : Stage} {todo : List Stage} {read : List StageRun} {now : Nat}
      (tied : select db.tables.runs m.lineage dep = .ambiguous) :
      Serves registered max m db (.reading (dep :: todo) read) (.next now) db (.raised (.ambiguous m.stageName dep))
  | select {dep : Stage} {todo : List Stage} {read : List StageRun} {now : Nat} {r : StageRun}
      (found : select db.tables.runs m.lineage dep = .row r) :
      Serves registered max m db (.reading (dep :: todo) read) (.next now) db (.reading todo (read ++ [r]))
  | start {read : List StageRun} {now : Nat} :
      Serves registered max m db (.reading [] read) (.next now) db (.running read .start)
  | unregistered {read : List StageRun} {now : Nat} :
      Serves registered max m db (.reading [] read) (.next now) db (.raised (.configuration m.stageName))
  | drop {todo : List Stage} {read : List StageRun} : Serves registered max m db (.reading todo read) .crash db .crashed
  | run {read : List StageRun} {p p' : Phase} {cue : Cue} {tables : RunStore}
      (effect : Effect max (m.withEvidence read) db.tables p cue tables p') :
      Serves registered max m db (.running read p) cue { db with tables := tables }
        (Handler.ofPhase (m.withEvidence read) read p')

theorem step_serves {registered : Stage → Bool} {max : Nat} {m : StageManifest} {db db' : Database} {h h' : Handler} {cue : Cue}
    (hs : h.step registered max m db cue = some (db', h')) : Serves registered max m db h cue db' h' := by
  cases h with
  | idle =>
    cases cue with
    | next now =>
      simp only [Handler.step] at hs
      split at hs
      · cases hs; exact .skip ‹_›
      · split at hs
        · rename_i hu
          cases hs; exact .invalid hu.2
        · rename_i hu
          cases hs
          rw [not_and_or, not_not, Bool.not_eq_false] at hu
          exact .enter hu
    | _ => cases hs
  | reading todo read =>
    cases cue with
    | next now =>
      cases todo with
      | nil =>
        simp only [Handler.step] at hs
        split at hs
        · cases hs; exact .start
        · cases hs; exact .unregistered
      | cons dep todo =>
        simp only [Handler.step] at hs
        split at hs
        · cases hs; exact .missing ‹_›
        · cases hs; exact .ambiguous ‹_›
        · cases hs; exact .select ‹_›
    | crash => cases todo <;> (cases hs; exact .drop)
    | work => cases todo <;> cases hs
  | running read p =>
    obtain ⟨⟨tables, p'⟩, hp, heq⟩ := Option.map_eq_some_iff.1 hs
    cases heq
    exact .run (step_effect hp)
  | _ => cases cue <;> cases hs

/-! ## Runs and deliveries -/

/-- A delivery of the task of a stage in a workflow run. -/
structure Task where
  run : Nat
  stage : Stage
  delivery : Nat := 0
deriving DecidableEq

structure Hatchet where
  db : Database := {}
  task : Task → Handler := fun _ => .idle

inductive HatchetAct where
  | task (t : Task) (cue : Cue)
  /-- Somebody else changes job records: submits, cancels, resumes. -/
  | jobs (f : String → Option JobRecord)

/-- A step of a delivery, or of somebody else; `requests` are the submitted runs. -/
def Hatchet.step (registered : Stage → Bool) (max : Nat) (requests : Nat → RunRequest) (s : Hatchet) : HatchetAct → Option Hatchet
  | .task t cue =>
    ((s.task t).step registered max ((requests t.run).manifest t.stage) s.db cue).map fun r =>
      { db := r.1, task := upd s.task t r.2 }
  | .jobs f => some { s with db := { s.db with jobs := f } }

/-- A parent of the task has returned in the run. -/
def Hatchet.Returned (s : Hatchet) (run : Nat) (stage : Stage) : Prop := ∃ d ack, s.task ⟨run, stage, d⟩ = .acked ack

/-- Hatchet starts a task only after its parents have returned. -/
def StartsAfterParents (s : Hatchet) : HatchetAct → Prop
  | .task t _ =>
    match s.task t with
    | .idle => ∀ u ∈ t.stage.dependencies, s.Returned t.run u
    | _ => True
  | .jobs _ => True

theorem task_step {registered : Stage → Bool} {max : Nat} {requests : Nat → RunRequest} {s s' : Hatchet} {t : Task} {cue : Cue}
    (h : s.step registered max requests (.task t cue) = some s') :
    ∃ handler', Serves registered max ((requests t.run).manifest t.stage) s.db (s.task t) cue s'.db handler' ∧
      s'.task = upd s.task t handler' := by
  obtain ⟨⟨db, handler'⟩, hs, rfl⟩ := Option.map_eq_some_iff.1 h
  exact ⟨handler', step_serves hs, rfl⟩

end Umd.Jobs
