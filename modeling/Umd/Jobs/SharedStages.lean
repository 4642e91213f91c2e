import Umd.Jobs.Reports
/-!
# Jobs that share their stages

Stage rows are shared between jobs by their key and stay with the job that
claimed them, so after submissions alone a job reports complete exactly where it
claimed a complete row of every stage itself (`shared_reports_iff`). A job whose
stages were all replayed from another job's rows never does.
-/

namespace Umd.Jobs

open Umd.Lib Umd.Events Umd.Ledger Umd.Reducer

/-- The only operations are submissions. -/
def SubmitsOnly (_ : History) : HistoryAct → Prop
  | .operate (.submit ..) => True
  | .operate _ => False
  | _ => True

/-- A row of the job is there. -/
def OwnsRow (db : Database) (jobId : String) : Prop := ∃ r ∈ db.tables.runs, r.jobId = jobId

/-- What submissions alone leave of a job. -/
structure SubmittedJob (db : Database) (jobId : String) (job : JobRecord) : Prop where
  id : job.id = jobId
  stages : job.Expects Finset.univ
  causation : Database.executionCausation job.request = none
  status : job.status ≠ .cancelled ∧ job.status ≠ .paused
  owns : job.status = .complete → OwnsRow db jobId

structure SubmittedJobs (s : History) : Prop where
  jobs : ∀ id job, s.db.jobs id = some job → SubmittedJob s.db id job
  derived : ∀ slot id status, s.derived slot = some (id, status) →
    (status ≠ .cancelled ∧ status ≠ .paused) ∧ (status = .complete → OwnsRow s.db id)

variable {record : Option (Invalidation → Db → Except PyError Db)} {order : SetOrder Stage} {max : Nat}
  {manifests : Nat → StageManifest} {s s' : History}

theorem SubmittedJobs.reports (hi : SubmittedJobs s) {jobId : String} {job : JobRecord} (hjob : s.db.jobs jobId = some job) :
    (historyService record).status s.db jobId = .ok .complete ↔
      job.status ≠ .failed ∧ ∀ stage, ∃ r ∈ s.db.tables.runs, r.jobId = jobId ∧ r.stageName = stage ∧ r.status = .complete := by
  have hsub := hi.jobs jobId job hjob
  have hexpect : JobsExpect s.db :=
    ⟨fun id job h => (hi.jobs id job h).id, fun id job h => ⟨Finset.univ, ⟨.ingest, Finset.mem_univ _⟩, (hi.jobs id job h).stages⟩⟩
  have hread : ∀ r : StageRun, Database.isRead job.id job.request r = true ↔ r.jobId = jobId := fun r => by
    simp [Database.isRead, hsub.causation, hsub.id]
  have hnames : ∀ stage : Stage, Json.str stage.name ∈ Database.expectedNames job.request := fun stage => by
    rw [Database.expectedNames, hsub.stages]
    exact mem_stageNames.2 ⟨stage, Finset.mem_univ _, rfl⟩
  have hfinal : job.status ∉ [JobStatus.cancelled, .paused, .failed] ↔ job.status ≠ .failed := by
    simp [hsub.status.1, hsub.status.2]
  rw [reports_iff hexpect hjob, Reports, hfinal]
  simp only [hnames, forall_const, hread, ← Bool.not_eq_true]
  refine and_congr_right fun _ => or_iff_left ?_
  rintro ⟨hcomplete, hnone⟩
  obtain ⟨r, hr, hown⟩ := hsub.owns hcomplete
  exact hnone r hr hown

theorem SubmittedJobs.derives (hi : SubmittedJobs s) {jobId : String} {status : JobStatus}
    (h : (historyService record).status s.db jobId = .ok status) :
    (status ≠ .cancelled ∧ status ≠ .paused) ∧ (status = .complete → OwnsRow s.db jobId) := by
  cases hjob : s.db.jobs jobId with
  | none => simp [JobService.status, historyService, Database.store, hjob] at h
  | some job =>
    have hsub := hi.jobs jobId job hjob
    constructor
    · simp only [JobService.status, historyService, Database.store, hjob] at h
      rw [deriveStatus_expects hsub.stages ⟨.ingest, Finset.mem_univ _⟩] at h
      split at h
      · cases h; exact hsub.status
      · repeat' split at h
        all_goals cases h; exact ⟨by decide, by decide⟩
    · rintro rfl
      obtain ⟨-, hrows⟩ := (hi.reports hjob).1 h
      obtain ⟨r, hr, hown, -⟩ := hrows .ingest
      exact ⟨r, hr, hown⟩

/-- Rows stay, so what holds of a job's rows goes on to hold. -/
theorem OwnsRow.kept {db db' : Database} {jobId : String} (h : OwnsRow db jobId)
    (hrows : ∀ r ∈ db.tables.runs, ∃ r' ∈ db'.tables.runs, r'.jobId = r.jobId) : OwnsRow db' jobId := by
  obtain ⟨r, hr, hown⟩ := h
  obtain ⟨r', hr', hjob⟩ := hrows r hr
  exact ⟨r', hr', hjob.trans hown⟩

theorem SubmittedJob.kept {db db' : Database} {jobId : String} {job : JobRecord} (h : SubmittedJob db jobId job)
    (hrows : ∀ r ∈ db.tables.runs, ∃ r' ∈ db'.tables.runs, r'.jobId = r.jobId) : SubmittedJob db' jobId job :=
  ⟨h.id, h.stages, h.causation, h.status, fun hc => (h.owns hc).kept hrows⟩

/-- A derived status can be stored. -/
theorem SubmittedJobs.stored (hi : SubmittedJobs s) {jobId : String} {status : JobStatus} {error : Option String}
    {derived : Nat → Option (String × JobStatus)}
    (hstatus : (status ≠ .cancelled ∧ status ≠ .paused) ∧ (status = .complete → OwnsRow s.db jobId))
    (hderived : ∀ slot id st, derived slot = some (id, st) → s.derived slot = some (id, st)) :
    SubmittedJobs { s with db := Database.store.updateStatus s.db jobId status error, derived := derived } := by
  refine ⟨fun id job hjob => ?_, fun slot id st h => hi.derived slot id st (hderived slot id st h)⟩
  simp only [Database.store, Database.change] at hjob
  split at hjob
  · rename_i hid
    subst hid
    obtain ⟨job₀, hjob₀, rfl⟩ := Option.map_eq_some_iff.1 hjob
    have hsub := hi.jobs id job₀ hjob₀
    exact ⟨hsub.id, hsub.stages, hsub.causation, hstatus.1, hstatus.2⟩
  · have hsub := hi.jobs id job hjob
    exact ⟨hsub.id, hsub.stages, hsub.causation, hsub.status, hsub.owns⟩

theorem SubmittedJobs.step {a : HistoryAct} (hi : SubmittedJobs s) (hok : SubmitsOnly s a)
    (h : s.step record order max manifests a = some s') : SubmittedJobs s' := by
  cases a with
  | operate op =>
    cases op with
    | submit jobId sourceId dagUniverse request =>
      cases h
      have hrows : ∀ r ∈ s.db.tables.runs, ∃ r' ∈ ((historyService record).call order s.db
          (.submit jobId sourceId dagUniverse request)).1.tables.runs, r'.jobId = r.jobId := by
        rw [call_runs]
        exact fun r hr => ⟨r, hr, rfl⟩
      refine ⟨fun id job hjob => ?_, fun slot id st h => ?_⟩
      · rcases submit_jobs fun job hjob => (hi.jobs jobId job hjob).id with hsame | ⟨job₀, rfl, hnew⟩
        · rw [hsame] at hjob
          exact (hi.jobs id job hjob).kept hrows
        · rw [hnew] at hjob
          by_cases hid : id = job₀.id
          · subst hid
            rw [upd_self] at hjob
            cases hjob
            exact ⟨rfl, executing_expects, executing_causation, ⟨(fun hc => by cases hc), (fun hc => by cases hc)⟩, fun hc => by cases hc⟩
          · rw [upd_ne _ _ hid] at hjob
            exact (hi.jobs id job hjob).kept hrows
      · obtain ⟨hst, hown⟩ := hi.derived slot id st h
        exact ⟨hst, fun hc => (hown hc).kept hrows⟩
    | _ => cases hok
  | execute i cue =>
    obtain ⟨⟨tables, p⟩, hstep, rfl⟩ := Option.map_eq_some_iff.1 h
    have hrows : ∀ r ∈ s.db.tables.runs, ∃ r' ∈ tables.runs, r'.jobId = r.jobId := by
      intro r hr
      obtain ⟨r', hr', hclaimed⟩ := effect_kept (step_effect hstep) hr
      exact ⟨r', hr', congrArg (·.jobId) (show r'.claimed = r.claimed from hclaimed)⟩
    refine ⟨fun id job hjob => (hi.jobs id job hjob).kept hrows, fun slot id st h => ?_⟩
    obtain ⟨hst, hown⟩ := hi.derived slot id st h
    exact ⟨hst, fun hc => (hown hc).kept hrows⟩
  | derive slot jobId =>
    simp only [History.step] at h
    split at h
    · cases h
    · rename_i status hstatus
      cases h
      refine ⟨hi.jobs, fun slot' id st h => ?_⟩
      dsimp only at h
      by_cases hslot : slot' = slot
      · subst hslot
        rw [upd_self] at h
        cases h
        exact hi.derives hstatus
      · rw [upd_ne _ _ hslot] at h
        exact hi.derived slot' id st h
  | refresh slot =>
    simp only [History.step] at h
    split at h
    · cases h
    · rename_i jobId status hslot
      cases h
      refine hi.stored (hi.derived slot jobId status hslot) fun slot' id st h => ?_
      by_cases hs : slot' = slot
      · subst hs; rw [upd_self] at h; cases h
      · rwa [upd_ne _ _ hs] at h
  | submissionFailed jobId =>
    cases h
    exact hi.stored ⟨⟨by decide, by decide⟩, fun hc => by cases hc⟩ fun _ _ _ h => h

/-- **After submissions alone a job reports complete exactly where no failure is stored for it and every stage has a
complete row that the job claimed itself.** -/
theorem shared_reports_iff (h : Run (History.step record order max manifests) SubmitsOnly {} s)
    {jobId : String} {job : JobRecord} (hjob : s.db.jobs jobId = some job) :
    (historyService record).status s.db jobId = .ok .complete ↔
      job.status ≠ .failed ∧ ∀ stage, ∃ r ∈ s.db.tables.runs, r.jobId = jobId ∧ r.stageName = stage ∧ r.status = .complete := by
  have hi : SubmittedJobs s := h.inv SubmittedJobs ⟨by exact nofun, by exact nofun⟩ fun _ _ _ hi hok hs => hi.step hok hs
  exact hi.reports hjob

/-! ## Two jobs of one source -/

/-- The calls of two jobs, each stage in turn, with work that leaves no refs. -/
def sharedCalls (n : Nat) : StageManifest :=
  manifestFor (if n < 9 then "a" else "b") (some bookSource) "" (stageOrder.getD (n % 9) .ingest) [] none

abbrev sharedStep : History → HistoryAct → Option History := History.step none backwards 1 sharedCalls

/-- The first `k` calls of the first job have completed their stages. -/
structure FirstJob (k : Nat) (s : History) : Prop where
  ended : ∀ i < k, (s.phase i).isOver = true
  waiting : ∀ i, k ≤ i → s.phase i = .start
  owner : ∀ r ∈ s.db.tables.runs, r.jobId = "a"
  done : ∀ i < k, ∃ r, runOf s.db.tables.runs (sharedCalls i).idempotencyKey = some r ∧ r.status = .complete ∧
    r.stageName = (sharedCalls i).stageName
  free : ∀ i, k ≤ i → i < 9 → runOf s.db.tables.runs (sharedCalls i).idempotencyKey = none

theorem sharedCalls_key {i j : Nat} (hi : i < 9) (hj : j < 9) (h : (sharedCalls i).idempotencyKey = (sharedCalls j).idempotencyKey) :
    i = j := by
  have hs : (sharedCalls i).stageName = (sharedCalls j).stageName := stage_of_key rfl h
  have hname : ∀ n, n < 9 → (sharedCalls n).stageName = stageOrder.getD n .ingest := fun n hn => by
    rw [sharedCalls, Nat.mod_eq_of_lt hn]; rfl
  have hinj : ∀ i < 9, ∀ j < 9, stageOrder.getD i .ingest = stageOrder.getD j .ingest → i = j := by decide
  rw [hname i hi, hname j hj] at hs
  exact hinj i hi j hj hs

theorem firstJob_step {k : Nat} {s : History} (hk : k < 9) (h : FirstJob k s) :
    ∃ s', Run sharedStep SubmitsOnly s s' ∧ s'.db.jobs = s.db.jobs ∧ FirstJob (k + 1) s' := by
  have hfree := h.free k (Nat.le_refl k) hk
  obtain ⟨ledger, r, hexec, -⟩ := @execute_ok 1 (sharedCalls k) (fun _ => .ok {}) 0 s.db.tables {} bookSource
    (not_ended_of_free hfree) rfl rfl
  obtain ⟨s', hrun, hjobs, htables, hphase⟩ := @history_execute none backwards 1 sharedCalls SubmitsOnly k
    (fun _ _ => trivial) s (h.waiting k (Nat.le_refl k)) (fun _ => .ok {}) 0
  rw [hexec, claim_free hfree] at htables
  have hother : ∀ i, i < 9 → i ≠ k → runOf s'.db.tables.runs (sharedCalls i).idempotencyKey =
      runOf s.db.tables.runs (sharedCalls i).idempotencyKey := by
    intro i hi hne
    have hkey := mt (sharedCalls_key hi hk) hne
    rw [htables, runOf_completeRun, if_neg hkey, runOf_append, StageRun.of, if_neg (Ne.symm hkey), Option.or_none]
  refine ⟨s', hrun, hjobs, ?_, ?_, ?_, ?_, ?_⟩
  · intro i hi
    rw [hphase]
    by_cases hik : i = k
    · subst hik; rw [upd_self]; exact execute_over ..
    · rw [upd_ne _ _ hik]; exact h.ended i (by omega)
  · intro i hi
    rw [hphase, upd_ne _ _ (by omega)]
    exact h.waiting i (by omega)
  · intro r hr
    rw [htables] at hr
    obtain ⟨r₀, hr₀, rfl⟩ := List.mem_map.1 hr
    have hown : r₀.jobId = "a" := by
      rcases List.mem_append.1 hr₀ with hr₀ | hr₀
      · exact h.owner r₀ hr₀
      · rw [List.mem_singleton.1 hr₀]
        simp [StageRun.of, sharedCalls, manifestFor, hk]
    split <;> exact hown
  · intro i hi
    by_cases hik : i = k
    · subst hik
      rw [htables, runOf_completeRun, if_pos rfl, runOf_append, hfree, StageRun.of, if_pos rfl]
      exact ⟨_, rfl, rfl, rfl⟩
    · rw [hother i (by omega) hik]
      exact h.done i (by omega)
  · intro i hi hi9
    rw [hother i hi9 (by omega)]
    exact h.free i (by omega) hi9

/-- The first job has run, and so have the first `k` calls of the second. -/
structure SecondJob (k : Nat) (s : History) : Prop where
  ended : ∀ i < 9 + k, (s.phase i).isOver = true
  waiting : ∀ i, 9 + k ≤ i → s.phase i = .start
  owner : ∀ r ∈ s.db.tables.runs, r.jobId = "a"
  done : ∀ i < 9, ∃ r, runOf s.db.tables.runs (sharedCalls i).idempotencyKey = some r ∧ r.status = .complete ∧
    r.stageName = (sharedCalls i).stageName

theorem secondJob_step {k : Nat} {s : History} (hk : k < 9) (h : SecondJob k s) :
    ∃ s', Run sharedStep SubmitsOnly s s' ∧ s'.db.jobs = s.db.jobs ∧ SecondJob (k + 1) s' := by
  obtain ⟨r, hrow, hst, -⟩ := h.done k hk
  -- the job is no part of the key
  have hkey : (sharedCalls (9 + k)).idempotencyKey = (sharedCalls k).idempotencyKey := by
    rw [sharedCalls, sharedCalls, Nat.add_mod_left]; rfl
  have hended : RowEnded s.db.tables.runs (sharedCalls (9 + k)).idempotencyKey := by
    rw [hkey]
    simp [RowEnded, existingRun, hrow, hst]
  obtain ⟨s', hrun, hjobs, htables, hphase⟩ := @history_execute none backwards 1 sharedCalls SubmitsOnly (9 + k)
    (fun _ _ => trivial) s (h.waiting _ (Nat.le_refl _)) (fun _ => .ok {}) 0
  have hruns : s'.db.tables.runs = s.db.tables.runs := by
    rw [htables]
    exact (drive_quiet hended).1
  refine ⟨s', hrun, hjobs, ?_, ?_, by rw [hruns]; exact h.owner, by rw [hruns]; exact h.done⟩
  · intro i hi
    rw [hphase]
    by_cases hik : i = 9 + k
    · subst hik; rw [upd_self]; exact execute_over ..
    · rw [upd_ne _ _ hik]; exact h.ended i (by omega)
  · intro i hi
    rw [hphase, upd_ne _ _ (by omega)]
    exact h.waiting i (by omega)

/-- What each of `n` steps takes on to the next. -/
theorem iterate_run {P : Nat → History → Prop} {n : Nat} {s : History} (h0 : P 0 s)
    (hstep : ∀ k s, k < n → P k s → ∃ s', Run sharedStep SubmitsOnly s s' ∧ s'.db.jobs = s.db.jobs ∧ P (k + 1) s') :
    ∃ s', Run sharedStep SubmitsOnly s s' ∧ s'.db.jobs = s.db.jobs ∧ P n s' := by
  induction n with
  | zero => exact ⟨s, .refl, rfl, h0⟩
  | succ n ih =>
    obtain ⟨s₁, hrun₁, hjobs₁, h₁⟩ := ih fun k s hk => hstep k s (by omega)
    obtain ⟨s₂, hrun₂, hjobs₂, h₂⟩ := hstep n s₁ (by omega) h₁
    exact ⟨s₂, hrun₁.trans hrun₂, hjobs₂.trans hjobs₁, h₂⟩

/-- **Two jobs of one source, one after the other: all their calls have ended, every stage has a complete row, and the
second job does not report complete.** -/
theorem second_job_incomplete : ∃ (s : History) (job : JobRecord), Run sharedStep SubmitsOnly {} s ∧
    s.db.jobs "b" = some job ∧ (∀ i < 18, (s.phase i).isOver = true) ∧
    (∀ stage, ∃ r ∈ s.db.tables.runs, r.stageName = stage ∧ r.status = .complete) ∧
    (historyService none).status s.db "b" ≠ .ok .complete := by
  let s₁ : History := { db := ((historyService none).call backwards {} (.submit "a" (some bookSource) "" [])).1 }
  let s₂ : History := { db := ((historyService none).call backwards s₁.db (.submit "b" (some bookSource) "" [])).1 }
  have hrun₁ : Run sharedStep SubmitsOnly {} s₁ :=
    .step (a := .operate (.submit "a" (some bookSource) "" [])) .refl trivial rfl
  have hrun₂ : Run sharedStep SubmitsOnly {} s₂ :=
    .step (a := .operate (.submit "b" (some bookSource) "" [])) hrun₁ trivial rfl
  obtain ⟨job, hjob⟩ : ∃ job, s₂.db.jobs "b" = some job := ⟨_, rfl⟩
  have hruns : s₂.db.tables.runs = [] := (call_runs _).trans (call_runs _)
  have hfirst : FirstJob 0 s₂ := ⟨by simp, fun _ _ => rfl, by simp [hruns], by simp, fun _ _ _ => by rw [hruns]; rfl⟩
  obtain ⟨s₃, hrun₃, hjobs₃, h₃⟩ := iterate_run hfirst fun k s hk => firstJob_step hk
  have hsecond : SecondJob 0 s₃ := ⟨h₃.ended, h₃.waiting, h₃.owner, h₃.done⟩
  obtain ⟨s₄, hrun₄, hjobs₄, h₄⟩ := iterate_run hsecond fun k s hk => secondJob_step hk
  have hrun := hrun₂.trans (hrun₃.trans hrun₄)
  have hjob₄ : s₄.db.jobs "b" = some job := by rw [hjobs₄, hjobs₃, hjob]
  refine ⟨s₄, job, hrun, hjob₄, h₄.ended, fun stage => ?_, fun h => ?_⟩
  · have hindex : stage.index < 9 ∧ stageOrder.getD (stage.index % 9) .ingest = stage := by
      revert stage
      decide
    obtain ⟨r, hrow, hst, hstage⟩ := h₄.done stage.index hindex.1
    exact ⟨r, (runOf_key hrow).1, hstage.trans hindex.2, hst⟩
  · have hi : SubmittedJobs s₄ := hrun.inv SubmittedJobs ⟨by exact nofun, by exact nofun⟩ fun _ _ _ hi hok hs => hi.step hok hs
    obtain ⟨-, hrows⟩ := (hi.reports hjob₄).1 h
    obtain ⟨r, hr, hown, -⟩ := hrows .ingest
    rw [h₄.owner r hr] at hown
    simp at hown

theorem shared_reports_submitted : ∃ (s : History) (job : JobRecord), Run sharedStep SubmitsOnly {} s ∧
    s.db.jobs "a" = some job ∧ ((historyService none).status s.db "a" = .ok .complete ↔ job.status ≠ .failed ∧
      ∀ stage, ∃ r ∈ s.db.tables.runs, r.jobId = "a" ∧ r.stageName = stage ∧ r.status = .complete) := by
  let s₁ : History := { db := ((historyService none).call backwards {} (.submit "a" (some bookSource) "" [])).1 }
  have hrun : Run sharedStep SubmitsOnly {} s₁ :=
    .step (a := .operate (.submit "a" (some bookSource) "" [])) .refl trivial rfl
  obtain ⟨job, hjob⟩ : ∃ job, s₁.db.jobs "a" = some job := ⟨_, rfl⟩
  exact ⟨s₁, job, hrun, hjob, shared_reports_iff hrun hjob⟩

end Umd.Jobs
