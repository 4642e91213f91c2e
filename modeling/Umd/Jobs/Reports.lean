import Umd.Jobs.Scheduling
import Umd.Jobs.History
/-!
# When a job reports complete

After any history of submissions, retries, reruns, invalidations and stage
results the derived status is complete exactly where `Reports` holds. A failure
that was stored is final for a rerun: the stages it schedules may all complete,
and the job still reports failed.
-/

namespace Umd.Jobs

open Umd.Lib Umd.Events Umd.Ledger Umd.Reducer

/-- **After every history a job reports complete exactly where its stored status is not final and each stage it expects
has a complete row among those it reads.** -/
theorem history_reports_iff {record : Option (Invalidation → Db → Except PyError Db)} {order : SetOrder Stage} {max : Nat}
    {manifests : Nat → StageManifest} {s : History} (h : Run (History.step record order max manifests) Any {} s)
    {jobId : String} {job : JobRecord} (hjob : s.db.jobs jobId = some job) :
    (historyService record).status s.db jobId = .ok .complete ↔ Reports s.db job :=
  reports_iff (jobsExpect_run h) hjob

/-! ## A rerun after a failed one -/

def bookSource : String := "0f0e0d0c-0b0a-4908-8706-050403020100"

/-- The projection of a job, rerun for a cause. -/
def projection : StageManifest := manifestFor "job" (some bookSource) "" .currentSearchProjection [] (some "fix")

/-- The row of the projection, as the first call leaves it. -/
def projectionRow : StageRun := { StageRun.of projection.idempotencyKey projection 0 with status := .failed }

/-- The steps of a caller and of the executor. -/
abbrev projectionStep : History → HistoryAct → Option History := History.step none backwards 1 fun _ => projection

/-- Rerunning what depends on the stage before the projection. -/
theorem rerun_run {s : History} {job : JobRecord} (hjob : s.db.jobs "job" = some job) :
    ∃ s', Run projectionStep Any s s' ∧ s'.db.jobs "job" = some (job.executing {.currentSearchProjection} (some "fix")) ∧
      s'.db.tables = s.db.tables ∧ s'.phase = s.phase := by
  let op : Operation := .rerunStage bookSource .semanticReconciliation "SOURCE" "fix" "" "job"
  refine ⟨_, .step .refl trivial (rfl : projectionStep s (.operate op) = _), ?_, ?_, rfl⟩
  · have hcall : ((historyService none).call backwards s.db op).1 =
        ((historyService none).schedule s.db ⟨"job", some bookSource, "", [.currentSearchProjection], some "fix"⟩).1 := rfl
    dsimp only
    rw [hcall, schedule_jobs]
    simp only [Database.change, if_pos, hjob]
    rfl
  · exact scheduleSome_tables _

/-- Writing what `status` says. -/
theorem refresh_run {s : History} {job : JobRecord} {status : JobStatus} (hjob : s.db.jobs "job" = some job)
    (hstatus : (historyService none).status s.db "job" = .ok status) :
    ∃ s', Run projectionStep Any s s' ∧ s'.db.jobs "job" = some { job with status := status } ∧
      s'.db.tables = s.db.tables ∧ s'.phase = s.phase := by
  let s₁ : History := { s with derived := upd s.derived 0 (some ("job", status)) }
  have hderive : projectionStep s (.derive 0 "job") = some s₁ := by
    simp only [projectionStep, History.step, hstatus]
    rfl
  have hwrite : projectionStep s₁ (.refresh 0) = some { s₁ with
      db := Database.store.updateStatus s.db "job" status none, derived := upd s₁.derived 0 none } := by
    simp only [projectionStep, History.step, s₁, upd_self]
  refine ⟨_, .step (.step .refl trivial hderive) trivial hwrite, ?_, rfl, rfl⟩
  simp only [Database.store, Database.change, if_pos, hjob]
  rfl

/-- A job that expects the projection alone and reads its failed row reports failed. -/
theorem projection_status {db : Database} {job : JobRecord} (hjob : db.jobs "job" = some job)
    (hexp : job.Expects {.currentSearchProjection}) (hcause : Database.executionCausation job.request = some "fix")
    (hrunning : job.status = .running) (hruns : db.tables.runs = [projectionRow]) :
    (historyService none).status db "job" = .ok .failed := by
  have hread : Database.isRead "job" job.request projectionRow = true := by
    have hid : projectionRow.jobId = "job" := rfl
    have hrow : (projectionRow.inputManifest.get "rerun_causation").isStr "fix" = true := rfl
    simp only [Database.isRead, hid, hcause, hrow, decide_true, Bool.or_true, Bool.and_true]
  have hstates : (db.tables.runs.filter (Database.isRead "job" job.request)).foldl Database.foldRow [] =
      [{ stageName := .currentSearchProjection, status := .failed, idempotencyKey := some projection.idempotencyKey, attempts := 1 }] := by
    rw [hruns, List.filter_cons_of_pos hread]
    rfl
  have hstatus : (historyService none).status db "job" = deriveStatus job
      ((db.tables.runs.filter (Database.isRead "job" job.request)).foldl Database.foldRow []) := by
    simp only [JobService.status, historyService, Database.store, Database.stageStates, hjob]
  rw [hstatus, hstates, deriveStatus_expects hexp ⟨_, Finset.mem_singleton_self _⟩, hrunning]
  simp [stateOf]

/-- **A rerun fails and the same rerun again completes: every stage the job expects is complete for its cause, and the
job reports failed.** -/
theorem failed_stays : ∃ (s : History) (job : JobRecord), Run projectionStep Any {} s ∧ s.db.jobs "job" = some job ∧
    job.Expects {.currentSearchProjection} ∧ Database.executionCausation job.request = some "fix" ∧
    (∃ r ∈ s.db.tables.runs, r.jobId = "job" ∧ r.stageName = .currentSearchProjection ∧ r.status = .complete ∧
      r.inputManifest.get "rerun_causation" = .str "fix") ∧
    (historyService none).status s.db "job" = .ok .failed := by
  let s₁ : History := { db := ((historyService none).call backwards {} (.submit "job" (some bookSource) "" [])).1 }
  have hsubmit : projectionStep {} (.operate (.submit "job" (some bookSource) "" [])) = some s₁ := rfl
  obtain ⟨job, hjob₁, hst⟩ : ∃ job, s₁.db.jobs "job" = some job ∧ job.status = .running := ⟨_, rfl, rfl⟩
  -- the first rerun: its only call fails, and the job's status is stored
  obtain ⟨s₂, hrun₂, hjob₂, htables₂, hphase₂⟩ := rerun_run hjob₁
  obtain ⟨r₁, hexec₁⟩ := @execute_failing 1 projection (fun _ => .error "down") 0 {} (not_ended_of_free rfl) fun _ => ⟨"down", rfl⟩
  obtain ⟨s₃, hrun₃, hjobs₃, htables₃, hphase₃⟩ := @history_execute none backwards 1 (fun _ => projection) Any 0
    (fun _ _ => trivial) s₂ (by rw [hphase₂]) (fun _ => .error "down") 0
  have hruns₃ : s₃.db.tables.runs = [projectionRow] := by
    rw [htables₃, htables₂]
    refine (congrArg (·.1.runs) hexec₁).trans ?_
    rw [claim_free rfl]
    simp [markRun, setRun, StageRun.of, projectionRow]
  rw [← hjobs₃] at hjob₂
  have hstatus₃ := projection_status hjob₂ executing_expects executing_causation hst hruns₃
  obtain ⟨s₄, hrun₄, hjob₄, htables₄, hphase₄⟩ := refresh_run hjob₂ hstatus₃
  -- the second rerun: its call resumes the failed row and completes it
  obtain ⟨s₅, hrun₅, hjob₅, htables₅, hphase₅⟩ := rerun_run hjob₄
  have hrow : runOf s₅.db.tables.runs projection.idempotencyKey = some projectionRow := by
    rw [htables₅, htables₄, hruns₃]
    simp [runOf, projectionRow, StageRun.of]
  have hopen : ¬ RowEnded s₅.db.tables.runs projection.idempotencyKey := by
    simp [RowEnded, existingRun, hrow, projectionRow]
  obtain ⟨ledger, r₂, hexec₂, -⟩ := @execute_ok 1 projection (fun _ => .ok {}) 1 _ {} bookSource hopen rfl rfl
  obtain ⟨s₆, hrun₆, hjobs₆, htables₆, -⟩ := @history_execute none backwards 1 (fun _ => projection) Any 1
    (fun _ _ => trivial) s₅ (by rw [hphase₅, hphase₄, hphase₃, hphase₂]; rfl) (fun _ => .ok {}) 1
  rw [← hjobs₆] at hjob₅
  rw [hexec₂] at htables₆
  have hrun : Run projectionStep Any {} s₆ :=
    Run.trans (.step .refl trivial hsubmit) (hrun₂.trans (hrun₃.trans (hrun₄.trans (hrun₅.trans hrun₆))))
  refine ⟨s₆, _, hrun, hjob₅, executing_expects, executing_causation, ?_, ?_⟩
  · refine ⟨{ projectionRow with status := .complete }, ?_, rfl, rfl, rfl, rfl⟩
    rw [htables₆, claim_held hrow, htables₅, htables₄, hruns₃]
    simp [completeRun, setRun, projectionRow, StageRun.of]
  · have hfailed : JobStatus.failed ∈ [JobStatus.cancelled, .paused, .failed] := by simp
    simp only [JobService.status, historyService, Database.store, hjob₅]
    rw [deriveStatus_expects executing_expects ⟨_, Finset.mem_singleton_self _⟩]
    exact if_pos (.inl hfailed)

/-- A job that was submitted and has run nothing. -/
theorem history_reports_submitted : ∃ (s : History) (job : JobRecord), Run projectionStep Any {} s ∧
    s.db.jobs "job" = some job ∧ ((historyService none).status s.db "job" = .ok .complete ↔ Reports s.db job) := by
  let s₁ : History := { db := ((historyService none).call backwards {} (.submit "job" (some bookSource) "" [])).1 }
  have hsubmit : projectionStep {} (.operate (.submit "job" (some bookSource) "" [])) = some s₁ := rfl
  obtain ⟨job, hjob⟩ : ∃ job, s₁.db.jobs "job" = some job := ⟨_, rfl⟩
  exact ⟨s₁, job, .step .refl trivial hsubmit, hjob, history_reports_iff (.step .refl trivial hsubmit) hjob⟩

end Umd.Jobs
