import Umd.Lib.Steps
import Umd.Jobs.PostgresJobs
import Umd.Jobs.Executor
/-!
# Job histories

The operations of the service, the executor's calls and the status refreshes of
any jobs over one Postgres store, in any order. A job reports complete exactly
where its stored status is not a final one and a complete row it can read is
there for each stage it expects (`reports_iff`).
-/

namespace Umd.Jobs

open Umd.Lib Umd.Events Umd.Ledger Umd.Reducer

/-- The tables, the executor's calls, and the statuses that are derived and not yet written. -/
structure History where
  db : Database := {}
  phase : Nat → Phase := fun _ => .start
  derived : Nat → Option (String × JobStatus) := fun _ => none

inductive HistoryAct where
  /-- What an operation does before its call of `run_graph`. -/
  | operate (op : Operation)
  /-- A step of the executor's `i`-th call. -/
  | execute (i : Nat) (cue : Cue)
  /-- The two transactions of `_refresh_status`. -/
  | derive (slot : Nat) (jobId : String)
  | refresh (slot : Nat)
  /-- The `except` branch of `submit`. -/
  | submissionFailed (jobId : String)

/-- The service of a history; a command records in the ledger. -/
def historyService (record : Option (Invalidation → Db → Except PyError Db)) : JobService Database where
  store := Database.store
  runner := fun _ db => (db, .ok [])
  commands := record.map fun f inv db => (f inv db.tables.ledger).map fun ledger =>
    { db with tables := { db.tables with ledger := ledger } }

section Step

variable (record : Option (Invalidation → Db → Except PyError Db)) (order : SetOrder Stage) (max : Nat)
  (manifests : Nat → StageManifest)

def History.step (s : History) : HistoryAct → Option History
  | .operate op => some { s with db := ((historyService record).call order s.db op).1 }
  | .execute i cue => ((s.phase i).step max (manifests i) s.db.tables cue).map fun r =>
      { s with db := { s.db with tables := r.1 }, phase := upd s.phase i r.2 }
  | .derive slot jobId =>
    match (historyService record).status s.db jobId with
    | .error _ => none
    | .ok status => some { s with derived := upd s.derived slot (some (jobId, status)) }
  | .refresh slot =>
    match s.derived slot with
    | none => none
    | some (jobId, status) =>
      some { s with db := Database.store.updateStatus s.db jobId status none, derived := upd s.derived slot none }
  | .submissionFailed jobId =>
    some { s with db := Database.store.updateStatus s.db jobId .failed (some "submission failed") }

end Step

/-! ## The request of a job -/

theorem mem_stageNames {stages : Finset Stage} {j : Json} :
    j ∈ stageNames stages ↔ ∃ stage ∈ stages, j = .str stage.name := by
  simp only [stageNames, List.mem_map, Finset.mem_sort, Finset.mem_image]
  constructor
  · rintro ⟨_, ⟨stage, hs, rfl⟩, rfl⟩
    exact ⟨stage, hs, rfl⟩
  · rintro ⟨stage, hs, rfl⟩
    exact ⟨_, ⟨stage, hs, rfl⟩, rfl⟩

theorem get?_filter (d : Dict) (k k' : String) :
    Dict.get? (d.filter fun f => f.1 ≠ k') k = if k = k' then none else Dict.get? d k := by
  induction d with
  | nil => simp
  | cons f d ih =>
    obtain ⟨k₁, v⟩ := f
    by_cases h₁ : k₁ = k'
    · subst h₁
      rw [List.filter_cons_of_neg (by simp), ih, Dict.get?]
      split
      · rfl
      · rename_i hk; rw [if_neg (Ne.symm hk)]
    · rw [List.filter_cons_of_pos (by simpa using h₁), Dict.get?, Dict.get?, ih]
      by_cases hk : k₁ = k
      · subst hk; simp [h₁]
      · simp only [hk, if_false]

theorem executionRequest_expected (request : Dict) (stages : Finset Stage) (causation : Option String) :
    (InMemoryJobs.executionRequest request stages causation).get? "expected_stages" = some (.arr (stageNames stages)) := by
  unfold InMemoryJobs.executionRequest
  cases causation with
  | none => rw [get?_filter, if_neg (by decide), Dict.get?_set, if_pos rfl, stageNames]
  | some c => rw [Dict.get?_set, if_neg (by decide), Dict.get?_set, if_pos rfl, stageNames]

theorem executionRequest_causation (request : Dict) (stages : Finset Stage) (causation : Option String) :
    Database.executionCausation (InMemoryJobs.executionRequest request stages causation) = causation := by
  unfold InMemoryJobs.executionRequest Database.executionCausation
  cases causation with
  | none => rw [Dict.get, get?_filter, if_pos rfl]; rfl
  | some c => rw [Dict.get, Dict.get?_set, if_pos rfl]; rfl

/-! ## The derived status -/

/-- The job expects these stages. -/
def JobRecord.Expects (job : JobRecord) (stages : Finset Stage) : Prop :=
  job.request.get? "expected_stages" = some (.arr (stageNames stages))

theorem lookup_name {states : List StageState} {stage : Stage} :
    (stageOrder.findSome? fun s => if (Json.str stage.name).isStr s.name then stateOf states s else none) =
      stateOf states stage := by
  have hstr : ∀ s : Stage, (Json.str stage.name).isStr s.name = true ↔ s = stage := fun s => by
    rw [Json.isStr_iff]
    constructor
    · intro h
      exact name_injective (Json.str.inj h).symm
    · rintro rfl; rfl
  cases hst : stateOf states stage with
  | none =>
    rw [List.findSome?_eq_none_iff]
    intro s _
    split
    · rename_i h; rw [(hstr s).1 h]; exact hst
    · rfl
  | some status =>
    rw [List.findSome?_eq_some_iff]
    obtain ⟨before, after, horder⟩ := List.append_of_mem (mem_stageOrder stage)
    refine ⟨before, stage, after, horder, by rw [if_pos ((hstr stage).2 rfl), hst], fun s hs => ?_⟩
    have hne : s ≠ stage := by
      rintro rfl
      have hn := stageOrder_nodup
      rw [horder] at hn
      exact (List.nodup_append.1 hn).2.2 s hs s (by simp) rfl
    rw [if_neg fun h => hne ((hstr s).1 h)]

/-- The derived status of a job that expects some stages. -/
theorem deriveStatus_expects {job : JobRecord} {states : List StageState} {stages : Finset Stage}
    (hexp : job.Expects stages) (hne : stages.Nonempty) :
    deriveStatus job states =
      if job.status ∈ [JobStatus.cancelled, .paused, .failed] ∨ states = [] then .ok job.status
      else if ∃ stage ∈ stages, stateOf states stage = none then .ok .running
      else if ∃ stage ∈ stages, stateOf states stage = some .quarantined ∨ stateOf states stage = some .failed then .ok .failed
      else if ∀ stage ∈ stages, stateOf states stage = some .complete then .ok .complete else .ok .running := by
  have hexpected : expectedStages job.request = .ok (stageNames stages) := by
    rw [expectedStages, hexp]
    refine if_pos (List.all_eq_true.2 fun j hj => ?_)
    obtain ⟨stage, -, rfl⟩ := mem_stageNames.1 hj
    rfl
  have hnames : (stageNames stages).isEmpty = false := by
    obtain ⟨stage, hs⟩ := hne
    rw [List.isEmpty_eq_false_iff]
    exact List.ne_nil_of_mem (mem_stageNames.2 ⟨stage, hs, rfl⟩)
  generalize hl : ((stageNames stages).map fun name => stageOrder.findSome? fun s =>
    if name.isStr s.name then stateOf states s else none) = statuses
  have hstatuses : ∀ status, status ∈ statuses ↔ ∃ stage ∈ stages, stateOf states stage = status := by
    intro status
    rw [← hl]
    simp only [List.mem_map, mem_stageNames]
    constructor
    · rintro ⟨_, ⟨stage, hs, rfl⟩, rfl⟩
      exact ⟨stage, hs, lookup_name.symm⟩
    · rintro ⟨stage, hs, rfl⟩
      exact ⟨_, ⟨stage, hs, rfl⟩, lookup_name⟩
  unfold deriveStatus
  rw [hexpected]
  simp only [bind, Except.bind, pure, Except.pure, hnames, Bool.false_eq_true, false_or, List.isEmpty_iff, hl, hstatuses,
    List.all_eq_true, decide_eq_true_eq, forall_exists_index, and_imp, forall_apply_eq_imp_iff₂, ← exists_or, ← and_or_left]
  by_cases hfinal : job.status ∈ [JobStatus.cancelled, .paused, .failed] <;> simp only [hfinal, if_true, if_false, true_or, false_or]

/-- It is complete exactly where the stored one is not final, and every expected stage is complete or the stored status
is and nothing is known of any stage. -/
theorem deriveStatus_complete_iff {job : JobRecord} {states : List StageState} {stages : Finset Stage}
    (hexp : job.Expects stages) (hne : stages.Nonempty) :
    deriveStatus job states = .ok .complete ↔
      job.status ∉ [JobStatus.cancelled, .paused, .failed] ∧
        ((∀ stage ∈ stages, stateOf states stage = some .complete) ∨ states = [] ∧ job.status = .complete) := by
  rw [deriveStatus_expects hexp hne]
  by_cases hfinal : job.status ∈ [JobStatus.cancelled, .paused, .failed]
  · rw [if_pos (.inl hfinal)]
    refine iff_of_false (fun h => ?_) fun h => h.1 hfinal
    rw [Except.ok.inj h] at hfinal
    simp at hfinal
  by_cases hnil : states = []
  · rw [if_pos (.inr hnil)]
    subst hnil
    obtain ⟨stage, hs⟩ := hne
    constructor
    · intro h
      exact ⟨hfinal, .inr ⟨rfl, Except.ok.inj h⟩⟩
    · rintro ⟨-, h | ⟨-, h⟩⟩
      · cases h stage hs
      · rw [h]
  rw [if_neg (by simp only [hfinal, hnil, or_self, not_false_eq_true])]
  simp only [hfinal, hnil, not_false_eq_true, true_and, false_and, or_false]
  by_cases hdone : ∀ stage ∈ stages, stateOf states stage = some .complete
  · rw [if_neg, if_neg, if_pos hdone]
    · exact iff_of_true rfl hdone
    · rintro ⟨stage, hs, h | h⟩ <;> rw [hdone stage hs] at h <;> cases h
    · rintro ⟨stage, hs, h⟩
      rw [hdone stage hs] at h
      cases h
  · refine iff_of_false (fun h => ?_) hdone
    rw [if_neg hdone] at h
    split at h
    · cases h
    · split at h <;> cases h

/-! ## What an operation leaves of the jobs -/

section Operate

variable {record : Option (Invalidation → Db → Except PyError Db)} {order : SetOrder Stage} {db : Database}

/-- The job with a request to execute. -/
def JobRecord.executing (job : JobRecord) (stages : Finset Stage) (causation : Option String) : JobRecord :=
  { job with request := InMemoryJobs.executionRequest job.request stages causation }

theorem executing_expects {job : JobRecord} {stages : Finset Stage} {causation : Option String} :
    (job.executing stages causation).Expects stages := executionRequest_expected ..

theorem executing_causation {job : JobRecord} {stages : Finset Stage} {causation : Option String} :
    Database.executionCausation (job.executing stages causation).request = causation := executionRequest_causation ..

theorem schedule_jobs (req : RunRequest) : ((historyService record).schedule db req).1.jobs =
    (db.change req.jobId (·.executing req.stages.toFinset req.rerunCausation)).jobs := by
  have hset : (historyService record).store.setExecution db req.jobId req.stages.toFinset req.rerunCausation =
      Database.setExecution db req.jobId req.stages.toFinset req.rerunCausation := rfl
  rw [JobService.schedule, hset, Database.setExecution]
  cases hjob : db.jobs req.jobId with
  | some job => rfl
  | none =>
    funext id
    simp only [Database.change]
    split
    · rename_i h; rw [h, hjob]; rfl
    · rfl

/-- Scheduling all stages of a pending job. -/
theorem submitCall_jobs {job : JobRecord} {sourceId : Option String} {dagUniverse : String}
    (hjob : db.jobs job.id = some job) (hp : job.status = .pending) :
    ((historyService record).submitCall db job sourceId dagUniverse).1.jobs =
      upd db.jobs job.id (some ({ job with status := .running }.executing Finset.univ none)) := by
  have hall : stageOrder.toFinset = Finset.univ := rfl
  rw [JobService.submitCall, if_pos hp, schedule_jobs, hall]
  funext id
  simp only [Database.change, historyService, Database.store]
  by_cases hid : id = job.id
  · subst hid
    rw [if_pos rfl, if_pos rfl, hjob, upd_self]
    rfl
  · rw [if_neg hid, if_neg hid, upd_ne _ _ hid]

/-- A submission leaves the jobs, or gives a new or pending one all stages to execute. -/
theorem submit_jobs {jobId : String} {sourceId : Option String} {dagUniverse : String} {request : Dict}
    (hid : ∀ job, db.jobs jobId = some job → job.id = jobId) :
    ((historyService record).call order db (.submit jobId sourceId dagUniverse request)).1.jobs = db.jobs ∨
      ∃ job : JobRecord, job.id = jobId ∧
        ((historyService record).call order db (.submit jobId sourceId dagUniverse request)).1.jobs =
          upd db.jobs jobId (some ({ job with status := .running }.executing Finset.univ none)) := by
  have hcreate : (historyService record).store.create db jobId sourceId dagUniverse request =
      Database.create db jobId sourceId dagUniverse request := rfl
  simp only [JobService.call, hcreate, Database.create]
  cases Database.storedSource sourceId with
  | error e => exact .inl rfl
  | ok source =>
    cases hjob : db.jobs jobId with
    | some job =>
      dsimp only
      have hji := hid job hjob
      by_cases hp : job.status = .pending
      · refine .inr ⟨job, hji, ?_⟩
        rw [← hji] at hjob ⊢
        exact submitCall_jobs hjob hp
      · rw [JobService.submitCall, if_neg hp]
        exact .inl rfl
    | none =>
      dsimp only
      refine .inr ⟨{ id := jobId, sourceId := source, dagUniverse, status := .pending, request }, rfl, ?_⟩
      rw [submitCall_jobs (if_pos rfl) rfl]
      funext id
      by_cases hid : id = jobId
      · subst hid; rw [upd_self, upd_self]
      · rw [upd_ne _ _ hid, upd_ne _ _ hid]
        exact if_neg hid

theorem scheduleSome_jobs (req : RunRequest) : ((historyService record).scheduleSome db req).1.jobs = db.jobs ∨
    req.stages ≠ [] ∧ ((historyService record).scheduleSome db req).1.jobs =
      (db.change req.jobId (·.executing req.stages.toFinset req.rerunCausation)).jobs := by
  unfold JobService.scheduleSome
  split
  · exact .inl rfl
  · rename_i h
    exact .inr ⟨by simpa using h, schedule_jobs req⟩

/-- What a step does to the jobs, by what it is for. -/
inductive Changes (db : Database) : (String → Option JobRecord) → Prop
  | nothing : Changes db db.jobs
  | submitted {job : JobRecord} :
      Changes db (upd db.jobs job.id (some ({ job with status := .running }.executing Finset.univ none)))
  | retried {jobId : String} {cancelled : Finset Stage} :
      Changes db (db.change jobId fun job => { job with status := .running, cancelledStages := cancelled }).jobs
  | stored {jobId : String} {status : JobStatus} {error : Option String} :
      Changes db (db.change jobId fun job => { job with status := status, error := error.or job.error }).jobs
  | rerun {jobId : String} {stages : Finset Stage} {causation : String} (some_stage : stages.Nonempty) :
      Changes db (db.change jobId (·.executing stages (some causation))).jobs

theorem scheduleSome_changes {db' : Database} {req : RunRequest} {causation : String} (hjobs : db'.jobs = db.jobs)
    (hcause : req.rerunCausation = some causation) : Changes db ((historyService record).scheduleSome db' req).1.jobs := by
  have hchange : ∀ f, (db'.change req.jobId f).jobs = (db.change req.jobId f).jobs := fun f => by
    simp only [Database.change, hjobs]
  rcases @scheduleSome_jobs record db' req with h | ⟨hne, h⟩
  · rw [h, hjobs]
    exact .nothing
  · rw [h, hchange, hcause]
    exact .rerun (by simpa [Finset.nonempty_iff_ne_empty] using hne)

/-- A command records in the ledger and nowhere else. -/
theorem command_keeps {command : Invalidation → Database → Except PyError Database} {inv : Invalidation} {db' : Database}
    (hc : (historyService record).commands = some command) (h : command inv db = .ok db') :
    db'.jobs = db.jobs ∧ db'.tables.runs = db.tables.runs := by
  obtain ⟨f, -, rfl⟩ := Option.map_eq_some_iff.1 hc
  cases hf : f inv db.tables.ledger with
  | error e => simp [hf, Except.map] at h
  | ok ledger =>
    simp only [hf, Except.map, Except.ok.injEq] at h
    rw [← h]
    exact ⟨rfl, rfl⟩

theorem retry_changes {jobId : String} {cancelled : Finset Stage} :
    Changes db (((historyService record).store.setCancelledStages
      ((historyService record).store.updateStatus db jobId .running none) jobId cancelled)).jobs := by
  have hjobs : ((historyService record).store.setCancelledStages
      ((historyService record).store.updateStatus db jobId .running none) jobId cancelled).jobs =
      (db.change jobId fun job => { job with status := .running, cancelledStages := cancelled }).jobs := by
    funext id
    simp only [historyService, Database.store, Database.change]
    split
    · cases db.jobs id <;> rfl
    · rfl
  rw [hjobs]
  exact .retried

/-- An operation does one of these. -/
theorem call_changes (hid : ∀ id job, db.jobs id = some job → job.id = id) (op : Operation) :
    Changes db ((historyService record).call order db op).1.jobs := by
  cases op with
  | submit jobId sourceId dagUniverse request =>
    rcases @submit_jobs record order db jobId sourceId dagUniverse request (hid jobId) with h | ⟨job, rfl, h⟩
    · rw [h]; exact .nothing
    · rw [h]; exact .submitted
  | retry jobId dagUniverse stage =>
    have hget : (historyService record).store.get db jobId = db.jobs jobId := rfl
    simp only [JobService.call, hget]
    cases db.jobs jobId with
    | none => exact .nothing
    | some rec => cases stage <;> exact retry_changes
  | rerunStage sourceId stage scope causation dagUniverse jobId => exact scheduleSome_changes rfl rfl
  | rerunSource sourceId scope causation dagUniverse jobId =>
    rw [JobService.call, JobService.rerunSourceCall, schedule_jobs]
    have hall : .formatAnalysis ∈ stageOrder.filter (· ≠ .ingest) := by decide
    exact .rerun ⟨.formatAnalysis, List.mem_toFinset.2 hall⟩
  | invalidate subjectRef predicate cause scope stage sourceId dagUniverse jobId refs =>
    simp only [JobService.call, JobService.invalidateCall]
    split
    · exact scheduleSome_changes rfl rfl
    · rename_i command hcommand
      split
      · exact .nothing
      · rename_i db' hdb
        exact scheduleSome_changes (command_keeps hcommand hdb).1 rfl

theorem schedule_tables (req : RunRequest) : ((historyService record).schedule db req).1.tables = db.tables := by
  have hset : (historyService record).store.setExecution db req.jobId req.stages.toFinset req.rerunCausation =
      Database.setExecution db req.jobId req.stages.toFinset req.rerunCausation := rfl
  rw [JobService.schedule, hset, Database.setExecution]
  cases db.jobs req.jobId <;> rfl

theorem scheduleSome_tables (req : RunRequest) : ((historyService record).scheduleSome db req).1.tables = db.tables := by
  unfold JobService.scheduleSome
  split
  · rfl
  · exact schedule_tables req

/-- No operation touches the rows of the executor. -/
theorem call_runs (op : Operation) : ((historyService record).call order db op).1.tables.runs = db.tables.runs := by
  cases op with
  | submit jobId sourceId dagUniverse request =>
    have hsubmit : ∀ (db' : Database) (job : JobRecord),
        ((historyService record).submitCall db' job sourceId dagUniverse).1.tables = db'.tables := by
      intro db' job
      unfold JobService.submitCall
      split
      · rw [schedule_tables]; rfl
      · rfl
    have hcreate : (historyService record).store.create db jobId sourceId dagUniverse request =
        Database.create db jobId sourceId dagUniverse request := rfl
    simp only [JobService.call, hcreate, Database.create]
    cases Database.storedSource sourceId with
    | error e => rfl
    | ok source =>
      cases db.jobs jobId with
      | some job => exact congrArg RunStore.runs (hsubmit db job)
      | none => exact congrArg RunStore.runs (hsubmit _ _)
  | retry jobId dagUniverse stage =>
    have hget : (historyService record).store.get db jobId = db.jobs jobId := rfl
    simp only [JobService.call, hget]
    cases db.jobs jobId with
    | none => rfl
    | some rec => cases stage <;> rfl
  | rerunStage sourceId stage scope causation dagUniverse jobId => exact congrArg RunStore.runs (scheduleSome_tables _)
  | rerunSource sourceId scope causation dagUniverse jobId => exact congrArg RunStore.runs (schedule_tables _)
  | invalidate subjectRef predicate cause scope stage sourceId dagUniverse jobId refs =>
    simp only [JobService.call, JobService.invalidateCall]
    split
    · exact congrArg RunStore.runs (scheduleSome_tables _)
    · rename_i command hcommand
      split
      · rfl
      · rename_i db' hdb
        rw [scheduleSome_tables]
        exact (command_keeps hcommand hdb).2

end Operate

/-! ## Runs -/

section Runs

variable {record : Option (Invalidation → Db → Except PyError Db)} {order : SetOrder Stage} {max : Nat}
  {manifests : Nat → StageManifest} {s s' : History} {a : HistoryAct}

theorem step_changes (hid : ∀ id job, s.db.jobs id = some job → job.id = id)
    (h : s.step record order max manifests a = some s') : Changes s.db s'.db.jobs := by
  cases a with
  | operate op => cases h; exact call_changes hid op
  | execute i cue =>
    obtain ⟨r, -, rfl⟩ := Option.map_eq_some_iff.1 h
    exact .nothing
  | derive slot jobId =>
    simp only [History.step] at h
    split at h
    · cases h
    · cases h; exact .nothing
  | refresh slot =>
    simp only [History.step] at h
    split at h
    · cases h
    · cases h; exact .stored
  | submissionFailed jobId => cases h; exact .stored

/-- The jobs of a history carry their ids and expect some stages. -/
structure JobsExpect (db : Database) : Prop where
  id : ∀ id job, db.jobs id = some job → job.id = id
  stages : ∀ id job, db.jobs id = some job → ∃ stages : Finset Stage, stages.Nonempty ∧ job.Expects stages

theorem JobsExpect.change {db db' : Database} {jobId : String} {f : JobRecord → JobRecord} (hi : JobsExpect db)
    (hjobs : db'.jobs = (db.change jobId f).jobs) (hid : ∀ job, (f job).id = job.id)
    (hf : ∀ job stages, stages.Nonempty → job.Expects stages → ∃ stages, stages.Nonempty ∧ (f job).Expects stages) :
    JobsExpect db' := by
  have hold : ∀ id job, db'.jobs id = some job → ∃ job₀, db.jobs id = some job₀ ∧ (job = job₀ ∨ job = f job₀) := by
    intro id job hjob
    rw [hjobs, Database.change] at hjob
    dsimp only at hjob
    split at hjob
    · obtain ⟨job₀, hjob₀, rfl⟩ := Option.map_eq_some_iff.1 hjob
      exact ⟨job₀, hjob₀, .inr rfl⟩
    · exact ⟨job, hjob, .inl rfl⟩
  constructor
  · intro id job hjob
    obtain ⟨job₀, hjob₀, rfl | rfl⟩ := hold id job hjob
    · exact hi.id id job hjob₀
    · rw [hid]; exact hi.id id job₀ hjob₀
  · intro id job hjob
    obtain ⟨job₀, hjob₀, rfl | rfl⟩ := hold id job hjob
    · exact hi.stages id job hjob₀
    · obtain ⟨stages, hne, hexp⟩ := hi.stages id job₀ hjob₀
      exact hf job₀ stages hne hexp

theorem JobsExpect.changes {db db' : Database} (hi : JobsExpect db) (h : Changes db db'.jobs) : JobsExpect db' := by
  generalize hjobs : db'.jobs = jobs at h
  cases h with
  | nothing => exact ⟨by rw [hjobs]; exact hi.id, by rw [hjobs]; exact hi.stages⟩
  | @submitted job =>
    constructor
    · intro id job' hjob
      rw [hjobs] at hjob
      by_cases hid : id = job.id
      · subst hid; rw [upd_self] at hjob; cases hjob; rfl
      · rw [upd_ne _ _ hid] at hjob; exact hi.id id job' hjob
    · intro id job' hjob
      rw [hjobs] at hjob
      by_cases hid : id = job.id
      · subst hid; rw [upd_self] at hjob; cases hjob
        exact ⟨Finset.univ, ⟨.ingest, Finset.mem_univ _⟩, executing_expects⟩
      · rw [upd_ne _ _ hid] at hjob; exact hi.stages id job' hjob
  | retried => exact hi.change hjobs (fun _ => rfl) fun _ stages hne hexp => ⟨stages, hne, hexp⟩
  | stored => exact hi.change hjobs (fun _ => rfl) fun _ stages hne hexp => ⟨stages, hne, hexp⟩
  | @rerun jobId stages causation hne =>
    exact hi.change hjobs (fun _ => rfl) fun _ _ _ _ => ⟨stages, hne, executing_expects⟩

theorem jobsExpect_run {ok : History → HistoryAct → Prop} (h : Run (History.step record order max manifests) ok {} s) :
    JobsExpect s.db :=
  h.inv (fun s => JobsExpect s.db) ⟨by exact nofun, by exact nofun⟩ fun _ _ _ hi _ hs => hi.changes (step_changes hi.id hs)

/-- A call of the executor alone, as steps of a history. -/
theorem history_drive {ok : History → HistoryAct → Prop} {work : Nat → WorkResult} {now i n : Nat}
    (hok : ∀ s cue, ok s (.execute i cue)) (s : History) :
    Run (History.step record order max manifests) ok s
      { s with
        db := { s.db with tables := (drive max (manifests i) work now n (s.db.tables, s.phase i)).1 }
        phase := upd s.phase i (drive max (manifests i) work now n (s.db.tables, s.phase i)).2 } := by
  induction n generalizing s with
  | zero =>
    simp only [drive, upd_same]
    exact .refl
  | succ n ih =>
    rw [drive]
    cases hstep : (s.phase i).step max (manifests i) s.db.tables ((s.phase i).cue work now) with
    | none =>
      simp only [upd_same]
      exact .refl
    | some y =>
      have hone : History.step record order max manifests s (.execute i ((s.phase i).cue work now)) =
          some { s with db := { s.db with tables := y.1 }, phase := upd s.phase i y.2 } := by
        simp only [History.step, hstep, Option.map_some]
      have hrest := ih { s with db := { s.db with tables := y.1 }, phase := upd s.phase i y.2 }
      simp only [upd_self, upd_twice] at hrest
      exact Run.trans (.step .refl (hok s _) hone) hrest

/-- The whole call, from its start. -/
theorem history_execute {ok : History → HistoryAct → Prop} {i : Nat} (hok : ∀ s cue, ok s (.execute i cue)) {s : History}
    (hstart : s.phase i = .start) (work : Nat → WorkResult) (now : Nat) :
    ∃ s', Run (History.step record order max manifests) ok s s' ∧ s'.db.jobs = s.db.jobs ∧
      s'.db.tables = (execute max (manifests i) work now s.db.tables).1 ∧
      s'.phase = upd s.phase i (execute max (manifests i) work now s.db.tables).2 := by
  refine ⟨_, @history_drive _ _ _ _ _ work now i (max + 6) hok s, rfl, ?_, ?_⟩ <;> rw [execute, hstart]

end Runs

/-! ## What a job reports -/

/-- The rows `stage_states` reads are empty. -/
theorem stageStates_nil {rows : List StageRun} : rows.foldl Database.foldRow [] = [] ↔ rows = [] := by
  have hfold := Database.folded rows
  constructor
  · intro h
    rw [h] at hfold
    rw [List.eq_nil_iff_forall_not_mem]
    intro r hr
    obtain ⟨s, hs, -⟩ := hfold.highest r hr
    cases hs
  · rintro rfl; rfl

/-- The job can report complete: its stored status is not final, and each stage it expects has a complete row that
the job reads; or it reads no row at all and its stored status is complete. -/
def Reports (db : Database) (job : JobRecord) : Prop :=
  job.status ∉ [JobStatus.cancelled, .paused, .failed] ∧
    ((∀ stage : Stage, Json.str stage.name ∈ Database.expectedNames job.request →
        ∃ r ∈ db.tables.runs, Database.isRead job.id job.request r = true ∧ r.stageName = stage ∧ r.status = .complete) ∨
      job.status = .complete ∧ ∀ r ∈ db.tables.runs, Database.isRead job.id job.request r = false)

theorem reports_iff {record : Option (Invalidation → Db → Except PyError Db)} {db : Database} (hi : JobsExpect db)
    {jobId : String} {job : JobRecord} (hjob : db.jobs jobId = some job) :
    (historyService record).status db jobId = .ok .complete ↔ Reports db job := by
  obtain ⟨stages, hne, hexp⟩ := hi.stages jobId job hjob
  have hid := hi.id jobId job hjob
  have hstatus : (historyService record).status db jobId = deriveStatus job
      ((db.tables.runs.filter (Database.isRead jobId job.request)).foldl Database.foldRow []) := by
    simp only [JobService.status, historyService, Database.store, Database.stageStates, hjob]
  have hnames : ∀ stage : Stage, Json.str stage.name ∈ Database.expectedNames job.request ↔ stage ∈ stages := by
    intro stage
    rw [Database.expectedNames, hexp]
    dsimp only
    rw [mem_stageNames]
    constructor
    · rintro ⟨stage', hs, h⟩
      rw [name_injective (Json.str.inj h)]
      exact hs
    · exact fun hs => ⟨stage, hs, rfl⟩
  rw [hstatus, deriveStatus_complete_iff hexp hne, Reports, hid]
  simp only [hnames, Database.stateOf_complete_iff, stageStates_nil, List.filter_eq_nil_iff, List.mem_filter,
    Bool.not_eq_true, and_assoc, and_comm (a := job.status = .complete)]

end Umd.Jobs
