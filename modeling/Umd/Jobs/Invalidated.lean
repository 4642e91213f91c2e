import Umd.Jobs.Scheduling
import Umd.Jobs.Runner
/-!
# Re-execution after an invalidation

The keys of an invalidation's targets are fresh only as far as its cause and the
refs before each target are. A target whose key has a complete row is answered
by that row (`invalidated_executed_iff`), so a cause given twice over unchanged
refs executes nothing.
-/

namespace Umd.Jobs

open Umd.Lib Umd.Events Umd.Ledger

/-- Every listed stage ends the call complete. -/
def AllComplete {σ : Type} (stages : List Stage) (r : GraphRun σ) : Prop :=
  ∀ stage ∈ stages, ∃ ev ∈ r.events, ev.stage = stage ∧ ev.status = .complete

/-- Every listed stage has its work invoked in the call. -/
def AllInvoked {σ : Type} (stages : List Stage) (g : GraphCall σ) (r : GraphRun σ) : Prop :=
  ∀ stage ∈ stages, ∃ t ∈ r.turns, t.stage = stage ∧ g.Invokes t

/-- No turn of the call has a key under which a database has a complete row. -/
def FreshKeys (db : Database) (g : GraphCall Database) (r : GraphRun Database) : Prop :=
  ∀ t ∈ r.turns, existingRun db.tables.runs (g.manifest t).idempotencyKey ≠ some .complete

/-- A turn that ends complete worked, unless it found the row of its key complete. -/
theorem complete_turn {σ : Type} {g : GraphCall σ} {t : Turn σ} {w : σ} {ev : StageRunEvent} {prior : List String}
    (h : g.take t = .next w ev prior) (hev : ev.status = .complete) :
    ev.stage = t.stage ∧ (g.Invokes t ↔ g.rowStatus t ≠ some .complete) := by
  have htaken := take_taken g t
  rw [h] at htaken
  cases htaken with
  | cancelled => cases hev
  | idle => cases hev
  | @ran job work tables record live open' hwork hrun =>
    refine ⟨rfl, ?_⟩
    have hskip : ∀ status, status = .cancelled ∨ status = .quarantined → g.rowStatus t ≠ some status := by
      intro status hs hrow
      have := @execute_skipped g.maxAttempts _ (work (g.manifest t)) (g.clock t.number) _ _ hs hrow
      rw [show execute _ _ _ _ _ = _ from hrun] at this
      cases this
      rcases hs with rfl | rfl <;> cases hev
    rw [invokes_iff (by rw [h]; exact nofun)]
    simp only [GraphCall.Works, live.cancelled_iff, open', hwork, not_false_eq_true, reduceCtorEq, ne_eq, true_and, RowEnded,
      List.mem_cons, List.not_mem_nil, or_false]
    exact not_congr ⟨fun h => h.resolve_right fun h => h.elim (hskip _ (.inl rfl)) (hskip _ (.inr rfl)), .inl⟩

/-- In a call alone in which every stage completes, every stage is worked exactly where no key was taken. -/
theorem invoked_iff_fresh {registry : Stage → Option Work} {maxAttempts : Nat} {request : RunRequest} {clock : Nat → Nat}
    {db : Database} (hn : request.stages.Nodup)
    (hdone : AllComplete request.stages ((alone registry maxAttempts request clock).run db)) :
    AllInvoked request.stages (alone registry maxAttempts request clock) ((alone registry maxAttempts request clock).run db) ↔
      FreshKeys db (alone registry maxAttempts request clock) ((alone registry maxAttempts request clock).run db) := by
  generalize hg : alone registry maxAttempts request clock = g at hdone ⊢
  have hrequest : g.request = request := by rw [← hg]; rfl
  have hturns : Turns g request.stages (g.run db) := hrequest ▸ loop_turns ..
  have hstages : ((g.run db).turns.map (·.stage)).Nodup := hn.sublist hturns.sublist
  -- a turn of each stage, that worked or found its row
  have hturn : ∀ stage ∈ request.stages, ∃ t ∈ (g.run db).turns, t.stage = stage ∧
      (g.Invokes t ↔ existingRun db.tables.runs (g.manifest t).idempotencyKey ≠ some .complete) := by
    intro stage hstage
    obtain ⟨ev, hev, rfl, hst⟩ := hdone stage hstage
    rw [hturns.events] at hev
    obtain ⟨t, ht, htake⟩ := List.mem_filterMap.1 hev
    rw [GraphCall.event?] at htake
    split at htake
    · rename_i htake'
      cases htake
      obtain ⟨hts, hiff⟩ := complete_turn htake' hst
      refine ⟨t, ht, hts.symm, hiff.trans ?_⟩
      have hrow : runOf t.world.tables.runs (g.manifest t).idempotencyKey = runOf db.tables.runs (g.manifest t).idempotencyKey := by
        subst hg
        exact loop_row hn t ht _ rfl rfl
      rw [GraphCall.rowStatus, existingRun, existingRun, ← hrow]
      subst hg
      rfl
    · cases htake
  constructor
  · intro h t ht
    have hmem : t.stage ∈ request.stages := hturns.sublist.subset (List.mem_map_of_mem ht)
    obtain ⟨t', ht', hts', hiff⟩ := hturn t.stage hmem
    obtain ⟨t'', ht'', hts'', hinv⟩ := h t.stage hmem
    have h1 := List.inj_on_of_nodup_map hstages ht' ht hts'
    have h2 := List.inj_on_of_nodup_map hstages ht'' ht hts''
    subst h1; subst h2
    exact hiff.1 hinv
  · intro h stage hstage
    obtain ⟨t, ht, hts, hiff⟩ := hturn stage hstage
    exact ⟨t, ht, hts, hiff.2 (h t ht)⟩

/-- A service whose calls of `run_graph` are looked at on their own. -/
def facade : JobService Database where
  store := Database.store
  runner := fun _ db => (db, .ok [])

/-- A correction that the projection depends on. -/
def correction : Invalidation where
  subjectRef := "e"
  predicate := none
  cause := "fix"
  scope := "SOURCE"
  stage := .semanticReconciliation
  refs := []
  correlationId := "job"

/-- The call `correction` prepares. -/
def corrected : RunRequest where
  jobId := "job"
  sourceId := some "source"
  dagUniverse := ""
  stages := [.currentSearchProjection]
  rerunCausation := some "invalidate:fix"

/-- The run of that call, with work that succeeds. -/
def correcting : GraphCall Database := alone (fun _ => some fun _ _ => .ok {}) 3 corrected fun _ => 0

/-- A job that runs. -/
def running (request : Dict) : JobRecord where
  id := "job"
  sourceId := none
  dagUniverse := ""
  status := .running
  request := request

/-- The manifest of the projection's turn. -/
def projecting : StageManifest := manifestFor "job" (some "source") "" .currentSearchProjection [] (some "invalidate:fix")

/-- The tables hold nothing, or just the complete row of the projection. -/
theorem correcting_event {db : Database} {request : Dict} {tables : RunStore} {record : StageRunRecord}
    (hjob : db.jobs "job" = some (running request)) (hprior : committedPriorRefs db.tables.runs "job" (some .currentSearchProjection) = [])
    (hrun : execute 3 projecting (fun _ => .ok {}) 0 db.tables = (tables, .returned record)) (hr : record.state = .complete) :
    (correcting.run db).world = { db with tables := tables } ∧ AllComplete corrected.stages (correcting.run db) ∧
      ∀ t ∈ (correcting.run db).turns, t.world = db ∧ correcting.manifest t = projecting := by
  have hlive : correcting.Live ⟨0, .currentSearchProjection, [], db⟩ (running request) := ⟨hjob, by simp [running]⟩
  have htake := take_ran hlive (Finset.notMem_empty _) rfl hrun
  have hloop : correcting.run db = correcting.loop 0 [.currentSearchProjection] [] db := by
    rw [← hprior]; rfl
  rw [hloop, loop_next htake]
  refine ⟨rfl, ?_, ?_⟩
  · intro stage hstage
    rw [List.mem_singleton.1 hstage]
    exact ⟨_, List.mem_cons_self .., rfl, hr⟩
  · intro t ht
    rw [List.mem_singleton.1 ht]
    exact ⟨rfl, rfl⟩

/-- The rows after it. -/
def projected : List StageRun :=
  completeRun [.of projecting.idempotencyKey projecting 0] projecting.idempotencyKey {}

/-- The first run works and commits its row. -/
theorem execute_first : ∃ ledger record, execute 3 projecting (fun _ => .ok {}) 0 {} =
    ({ ledger, runs := projected }, .returned record) ∧ record.state = .complete := by
  have hopen : ¬ RowEnded ({} : RunStore).runs projecting.idempotencyKey := by simp [RowEnded, existingRun, runOf]
  have happend : ∃ ledger result, append {} (completion projecting projecting.idempotencyKey {}) = (ledger, .ok result) :=
    ⟨_, _, rfl⟩
  obtain ⟨ledger, result, happend⟩ := happend
  refine ⟨ledger, { claim := (claim [] projecting 0).2, outcome := some {}, state := .complete, completionSeq := some result.seq },
    ?_, rfl⟩
  rw [execute_open hopen]
  simp only [settle, settled, drive, Phase.cue, Phase.step, complete, claim, runOf, List.find?_nil, happend]
  rfl

theorem existingRun_projected : existingRun projected projecting.idempotencyKey = some .complete := by
  rw [existingRun, projected, runOf_completeRun, if_pos rfl, runOf_of]
  rfl

/-- A run that finds the row replays it. -/
theorem execute_again {ledger : Db} : ∃ record, execute 3 projecting (fun _ => .ok {}) 0 { ledger, runs := projected } =
    ({ ledger, runs := projected }, .returned record) ∧ record.state = .complete := by
  obtain ⟨row, hrow, -⟩ := Option.map_eq_some_iff.1 existingRun_projected
  have hjob : row.jobId = "job" := by
    rw [projected, runOf_completeRun, if_pos rfl, runOf_of] at hrow
    cases hrow
    rfl
  have hsame : ¬ row.jobId ≠ projecting.jobId := by simp [hjob, projecting, manifestFor]
  have hrun : execute 3 projecting (fun _ => .ok {}) 0 { ledger, runs := projected } = ({ ledger, runs := projected },
      .returned (replayedRecord
        { won := false, idempotencyKey := projecting.idempotencyKey, stageName := row.stageName, jobId := row.jobId }
        (committedOutcome projected projecting.idempotencyKey))) := by
    rw [@execute_complete 3 projecting _ 0 { ledger, runs := projected } existingRun_projected, claim_held hrow]
    simp only [drive, Phase.cue, Phase.step, if_neg hsame]
  exact ⟨_, hrun, rfl⟩

/-- The call a correction prepares, and what preparing it leaves. -/
theorem correction_call {db : Database} {request : Dict} (hjob : db.jobs "job" = some (running request)) :
    ∃ db' request', (facade.invalidateCall db correction "source" "").2 = (db', .ok (some corrected)) ∧
      db'.jobs "job" = some (running request') ∧ db'.tables = db.tables := by
  have hset : ∃ db', Database.setExecution db "job" corrected.stages.toFinset (some "invalidate:fix") = .ok db' ∧
      (∃ request', db'.jobs "job" = some (running request')) ∧ db'.tables = db.tables := by
    refine ⟨db.change "job" fun job => { job with
      request := InMemoryJobs.executionRequest job.request corrected.stages.toFinset (some "invalidate:fix") }, ?_, ?_, rfl⟩
    · simp only [Database.setExecution, hjob]
    · refine ⟨InMemoryJobs.executionRequest request corrected.stages.toFinset (some "invalidate:fix"), ?_⟩
      simp only [Database.change, if_pos, hjob]
      rfl
  obtain ⟨db', hset, ⟨request', hjob'⟩, htables⟩ := hset
  refine ⟨db', request', ?_, hjob', htables⟩
  have hcall : (facade.invalidateCall db correction "source" "").2 = facade.schedule db corrected := rfl
  rw [hcall, JobService.schedule]
  rw [show facade.store.setExecution db corrected.jobId corrected.stages.toFinset corrected.rerunCausation = _ from hset]

/-- A database with one job that runs. -/
def oneRunning : Database where
  jobs := fun id => if id = "job" then some (running []) else none

/-- The first correction completes. -/
theorem first_correction : ∃ db ledger request, (facade.invalidateCall oneRunning correction "source" "").2 = (db, .ok (some corrected)) ∧
    AllComplete corrected.stages (correcting.run db) ∧ (correcting.run db).world.jobs "job" = some (running request) ∧
      (correcting.run db).world.tables = { ledger, runs := projected } := by
  obtain ⟨ledger, first, hfirst, hst⟩ := execute_first
  obtain ⟨db, request, hcall, hjob, htables⟩ := @correction_call oneRunning [] rfl
  obtain ⟨hworld, hdone, -⟩ := correcting_event hjob (by rw [htables]; rfl) (by rw [htables]; exact hfirst) hst
  exact ⟨db, ledger, request, hcall, hdone, by rw [hworld]; exact hjob, by rw [hworld]⟩

end Umd.Jobs
