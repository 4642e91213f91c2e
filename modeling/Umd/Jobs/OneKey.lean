import Umd.Jobs.Deliveries
import Umd.Jobs.Determined
/-!
# One row for each stage of a lineage

Workflow runs of one lineage whose work depends on the key: the key of a stage
is settled by the keys upstream of it (`stageKey`), so every delivery of every
run that spells the source alike comes to the same key (`one_row_per_stage`).
Another spelling of the same source gives other keys (`spelled_twice`).
-/

namespace Umd.Jobs

open Umd.Lib Umd.Events Umd.Ledger Umd.Reducer

/-- Work whose result is settled by the key of its manifest and the attempt. -/
def Determined (work : Uuid → Nat → WorkResult) (requests : Nat → RunRequest) (s : Hatchet) : HatchetAct → Prop
  | .task t (.work result) =>
    match s.task t with
    | .running read (.working _ n) => work (((requests t.run).manifest t.stage).withEvidence read).idempotencyKey n = result
    | _ => True
  | _ => True

/-- The runs are submitted without causation for one lineage. -/
structure OneLineage (requests : Nat → RunRequest) (lineage : LineageId) : Prop where
  plain : ∀ i, (requests i).rerunCausation = none
  lineage : ∀ i stage, ((requests i).manifest stage).lineage = lineage
  /-- PostgreSQL has read the source id. -/
  source : ∀ i text, (requests i).sourceId = some text → (pgUuid text).isSome = true

/-- All of them spell the source alike. -/
def SpelledAlike (requests : Nat → RunRequest) : Prop := ∀ i, (requests i).sourceId = (requests 0).sourceId

/-- No row of the lineage is there, and no row under a key of it. -/
structure FreshLineage (requests : Nat → RunRequest) (lineage : LineageId) (runs : List StageRun) : Prop where
  rows : ∀ r ∈ runs, r.isOf lineage = false
  keys : ∀ r ∈ runs, ∀ stage refs,
    r.idempotencyKey ≠ (((requests 0).manifest stage).withRefs refs).idempotencyKey

/-- What the callbacks promise of a lineage. -/
structure OneRowPerStage (lineage : LineageId) (requests : Nat → RunRequest) (s : Hatchet) : Prop where
  atMost : ∀ stage, (stageRows s.db.tables.runs lineage stage).length ≤ 1
  /-- A delivery that returned without being cancelled leaves a row. -/
  acked : ∀ t ack, s.task t = .acked ack → ack.state ≠ .cancelled →
    (stageRows s.db.tables.runs lineage t.stage).length = 1
  key : ∀ t t' read read' p p', t.stage = t'.stage → s.task t = .running read p → s.task t' = .running read' p' →
    (((requests t.run).manifest t.stage).withEvidence read).idempotencyKey =
      (((requests t'.run).manifest t'.stage).withEvidence read').idempotencyKey
  /-- Evidence lacks only where an upstream task of the run failed, was quarantined or was cancelled. -/
  evidence : ∀ t stage dep, s.task t = .raised (.missing stage dep) ∨ s.task t = .raised (.ambiguous stage dep) →
    ∃ u ∈ t.stage.dependencies, ∃ d ack, s.task ⟨t.run, u, d⟩ = .acked ack ∧
      ack.state ∈ [StageStatus.failed, .quarantined, .cancelled]

/-! ## The key of a stage -/

section Keys

variable (max : Nat) (work : Uuid → Nat → WorkResult)

/-- What the calls of a key settle on. -/
def keyResult (key : Uuid) : WorkResult := (settle (work key) (max - 1) 1).2

/-- The evidence a complete row of the key gives. -/
def keyEvidence (key : Uuid) : List String :=
  match keyResult max work key with
  | .ok outcome => outcome.evidenceRefs
  | _ => []

/-- The key every delivery of a stage comes to, by way of the keys it depends on. -/
def stageKey (req : RunRequest) (stage : Stage) : Uuid :=
  ((req.manifest stage).withRefs (mergedRefs (stage.dependencies.attach.flatMap fun u =>
    keyEvidence max work (stageKey req u.1)))).idempotencyKey
termination_by stage.index
decreasing_by exact index_of_dependency u.2

end Keys

variable {registered : Stage → Bool} {max : Nat} {requests : Nat → RunRequest} {work : Uuid → Nat → WorkResult}
  {lineage : LineageId}

theorem stageKey_eq (req : RunRequest) (stage : Stage) : stageKey max work req stage =
    ((req.manifest stage).withRefs (mergedRefs (stage.dependencies.flatMap fun u =>
      keyEvidence max work (stageKey max work req u)))).idempotencyKey := by
  rw [stageKey]
  congr 3
  conv_rhs => rw [← List.attach_map_subtype_val stage.dependencies, List.flatMap_map]

theorem stageKey_injective (req : RunRequest) : Function.Injective (stageKey max work req) := by
  intro stage stage' h
  rw [stageKey_eq, stageKey_eq] at h
  exact @stage_of_key ((req.manifest stage).withRefs _) ((req.manifest stage').withRefs _) rfl h

/-- The job is left out of the key. -/
theorem key_of_alike {req req' : RunRequest} {stage : Stage} {refs : List String} (hc : req.rerunCausation = none)
    (hc' : req'.rerunCausation = none) (hs : req.sourceId = req'.sourceId)
    (hu : (req.manifest stage).dagUniverse = (req'.manifest stage).dagUniverse) :
    ((req.manifest stage).withRefs refs).idempotencyKey = ((req'.manifest stage).withRefs refs).idempotencyKey := by
  have hinput : (req.manifest stage).inputManifest = (req'.manifest stage).inputManifest := by
    simp only [RunRequest.manifest, manifestFor, hc, hc', hs, ite_self]
  simp only [StageManifest.idempotencyKey, StageManifest.idempotencyMaterial, StageManifest.materialParts,
    StageManifest.withRefs, hu, hinput]
  simp only [RunRequest.manifest, manifestFor, hs]

/-- What a task of the lineage claims is a row of the lineage. -/
theorem claimed_isOf (h : OneLineage requests lineage) (i : Nat) (stage : Stage) (read : List StageRun) (now : Nat) :
    (StageRun.of (((requests i).manifest stage).withEvidence read).idempotencyKey
      (((requests i).manifest stage).withEvidence read) now).isOf lineage = true := by
  have hlineage := h.lineage i stage
  have hsource : (requests i).sourceId.bind pgUuid = lineage.source := by
    rw [← hlineage]
    cases hs : (requests i).sourceId with
    | none => simp [StageManifest.lineage, RunRequest.manifest, manifestFor, hs]
    | some text =>
      obtain ⟨u, hu⟩ := Option.isSome_iff_exists.1 (h.source i text hs)
      simp [StageManifest.lineage, RunRequest.manifest, manifestFor, hs, hu, pyUuid_of_pgUuid hu]
  have huniverse : ((requests i).manifest stage).dagUniverse = lineage.dagUniverse := by rw [← hlineage]; rfl
  have hsegment : lineage.segment = none := by rw [← hlineage]; rfl
  have hget : (((requests i).manifest stage).inputManifest.set "dag_universe" (.str lineage.dagUniverse)).get "dag_universe" =
      .str lineage.dagUniverse := by
    rw [Dict.get, Dict.get?_set]
    rfl
  simp only [StageRun.isOf, StageRun.of, StageManifest.withEvidence, StageManifest.withRefs, huniverse, hget, hsegment, Bool.and_eq_true,
    decide_eq_true_eq, Json.isStr_iff, and_true]
  exact ⟨hsource, rfl⟩

/-! ## The invariant -/

/-- An upstream task of the run ended without completing. -/
def UpstreamEnded (s : Hatchet) (t : Task) : Prop :=
  ∃ u ∈ t.stage.dependencies, ∃ d ack, s.task ⟨t.run, u, d⟩ = .acked ack ∧
    ack.state ∈ [StageStatus.failed, .quarantined, .cancelled]

/-- What holds of a delivery, with the rows it is beside. -/
def InTask (max : Nat) (work : Uuid → Nat → WorkResult) (requests : Nat → RunRequest) (s : Hatchet) (t : Task) : Handler → Prop
  | .reading todo read =>
    (∀ u ∈ t.stage.dependencies, s.Returned t.run u) ∧ ∃ done, t.stage.dependencies = done ++ todo ∧
      read.flatMap (·.evidenceRefs) = done.flatMap fun u => keyEvidence max work (stageKey max work (requests 0) u)
  | .running read p =>
    (((requests t.run).manifest t.stage).withEvidence read).idempotencyKey = stageKey max work (requests 0) t.stage ∧
      p.Fits max (work (stageKey max work (requests 0) t.stage)) s.db.tables.runs (stageKey max work (requests 0) t.stage)
  | .acked ack =>
    ack.state = .complete ∧ existingRun s.db.tables.runs (stageKey max work (requests 0) t.stage) = some .complete ∨
      ack.state ∈ [StageStatus.failed, .quarantined, .cancelled] ∧
        (ack.state ≠ .cancelled → runOf s.db.tables.runs (stageKey max work (requests 0) t.stage) ≠ none)
  | .raised (.missing ..) | .raised (.ambiguous ..) => UpstreamEnded s t
  | _ => True

/-- What holds of the lineage in the course of its runs. -/
structure InStep (max : Nat) (work : Uuid → Nat → WorkResult) (requests : Nat → RunRequest) (lineage : LineageId)
    (s : Hatchet) : Prop where
  rows : OneRow (stageKey max work (requests 0)) lineage s.db.tables.runs
  holds : ∀ stage r, runOf s.db.tables.runs (stageKey max work (requests 0) stage) = some r →
    Holds (keyResult max work (stageKey max work (requests 0) stage)) r
  tasks : ∀ t, InTask max work requests s t (s.task t)

/-- What a step leaves as it was. -/
structure Keeps (max : Nat) (work : Uuid → Nat → WorkResult) (requests : Nat → RunRequest) (s s' : Hatchet) : Prop where
  there : ∀ stage, runOf s.db.tables.runs (stageKey max work (requests 0) stage) ≠ none →
    runOf s'.db.tables.runs (stageKey max work (requests 0) stage) ≠ none
  complete : ∀ stage, existingRun s.db.tables.runs (stageKey max work (requests 0) stage) = some .complete →
    existingRun s'.db.tables.runs (stageKey max work (requests 0) stage) = some .complete
  acked : ∀ t ack, s.task t = .acked ack → s'.task t = .acked ack

theorem UpstreamEnded.kept {s s' : Hatchet} {t : Task} (hk : Keeps max work requests s s') (h : UpstreamEnded s t) :
    UpstreamEnded s' t := by
  obtain ⟨u, hu, d, ack, hack, hstate⟩ := h
  exact ⟨u, hu, d, ack, hk.acked _ _ hack, hstate⟩

theorem InTask.kept {s s' : Hatchet} {t : Task} {h : Handler} (hk : Keeps max work requests s s')
    (hi : InTask max work requests s t h) : InTask max work requests s' t h := by
  cases h with
  | reading todo read =>
    refine ⟨fun u hu => ?_, hi.2⟩
    obtain ⟨d, ack, hack⟩ := hi.1 u hu
    exact ⟨d, ack, hk.acked _ _ hack⟩
  | running read p => exact ⟨hi.1, fits_kept (hk.there _) (hk.complete _) hi.2⟩
  | acked ack =>
    rcases hi with ⟨hs, hc⟩ | ⟨hs, ht⟩
    · exact .inl ⟨hs, hk.complete _ hc⟩
    · exact .inr ⟨hs, fun hne => hk.there _ (ht hne)⟩
  | raised e =>
    cases e with
    | missing | ambiguous => exact UpstreamEnded.kept hk hi
    | _ => trivial
  | _ => trivial

theorem serves_live {m : StageManifest} {db db' : Database} {h h' : Handler} {cue : Cue} {ack : Ack}
    (hs : Serves registered max m db h cue db' h') : h ≠ .acked ack := by
  cases hs <;> exact nofun

/-- A row of the stage is the row of its key. -/
theorem InStep.row_iff {s : Hatchet} (hi : InStep max work requests lineage s) {stage : Stage} {r : StageRun} :
    r ∈ stageRows s.db.tables.runs lineage stage ↔
      runOf s.db.tables.runs (stageKey max work (requests 0) stage) = some r := by
  rw [hi.rows stage, Option.mem_toList]

theorem InStep.completeRows_length {s : Hatchet} (hi : InStep max work requests lineage s) (stage : Stage) :
    (completeRows s.db.tables.runs lineage stage).length ≤ 1 := by
  have hrows : (stageRows s.db.tables.runs lineage stage).length ≤ 1 := by
    rw [hi.rows stage]
    cases runOf s.db.tables.runs (stageKey max work (requests 0) stage) <;> simp
  exact (List.length_filter_le _ _).trans hrows

/-- What is selected for a dependency is what its key gives. -/
theorem InStep.selected {s : Hatchet} (hi : InStep max work requests lineage s) {dep : Stage} {r : StageRun}
    (h : select s.db.tables.runs lineage dep = .row r) :
    r.evidenceRefs = keyEvidence max work (stageKey max work (requests 0) dep) := by
  obtain ⟨hrow, hs⟩ := mem_completeRows.1 (select_row h).1
  obtain ⟨o, hresult, hrefs⟩ := holds_complete (hi.holds dep r (hi.row_iff.1 hrow)) hs
  rw [keyEvidence, hresult, hrefs]

/-- A dependency that is not found ended without completing. -/
theorem InStep.unselected {s : Hatchet} (hi : InStep max work requests lineage s) {t : Task} {dep : Stage}
    (hdep : dep ∈ t.stage.dependencies) (hreturned : s.Returned t.run dep)
    (h : completeRows s.db.tables.runs lineage dep = []) : UpstreamEnded s t := by
  obtain ⟨d, ack, hack⟩ := hreturned
  have htask := hi.tasks ⟨t.run, dep, d⟩
  rw [hack] at htask
  rcases htask with ⟨-, hc⟩ | ⟨hs, -⟩
  · obtain ⟨r, hr, hs⟩ := Option.map_eq_some_iff.1 hc
    have hmem := mem_completeRows.2 ⟨hi.row_iff.2 hr, hs⟩
    rw [h] at hmem
    cases hmem
  · exact ⟨dep, hdep, d, ack, hack, hs⟩

/-! ## A step -/

/-- The tables after a step of a call keep the invariant, and the call what holds of it. -/
theorem InStep.ran {s : Hatchet} (hi : InStep max work requests lineage s) (hl : OneLineage requests lineage) {t : Task}
    {read : List StageRun} {p p' : Phase} {cue : Cue} {tables : RunStore} (ht : s.task t = .running read p)
    (hcue : ∀ result c n, cue = .work result → p = .working c n →
      work (((requests t.run).manifest t.stage).withEvidence read).idempotencyKey n = result)
    (he : Effect max (((requests t.run).manifest t.stage).withEvidence read) s.db.tables p cue tables p') :
    OneRow (stageKey max work (requests 0)) lineage tables.runs ∧
      p'.Fits max (work (stageKey max work (requests 0) t.stage)) tables.runs (stageKey max work (requests 0) t.stage) ∧
      ∀ stage, RowKept (keyResult max work (stageKey max work (requests 0) stage)) (stageKey max work (requests 0) stage)
        s.db.tables.runs tables.runs := by
  have htask := hi.tasks t
  rw [ht] at htask
  obtain ⟨hkey, hfits⟩ := htask
  rw [hkey] at hcue
  rw [← hkey] at hfits hcue ⊢
  have hown := hi.holds t.stage
  rw [← hkey] at hown
  obtain ⟨hfits', hkept⟩ := effect_fits he hcue hfits hown
  refine ⟨hi.rows.effect (stageKey_injective _) hkey (claimed_isOf hl _ _ _) he, hfits', fun stage => ?_⟩
  by_cases hs : stage = t.stage
  · rw [hs, ← hkey]
    exact hkept
  · have hne : stageKey max work (requests 0) stage ≠ (((requests t.run).manifest t.stage).withEvidence read).idempotencyKey :=
      fun heq => hs (stageKey_injective _ (heq.trans hkey))
    have hsame := effect_other he (fun c hc => fits_claim hfits (effect_live he) hc) hne
    constructor
    · rw [hsame]; exact id
    · rw [existingRun, existingRun, hsame]; exact id
    · rw [hsame]; exact hi.holds stage

/-- The manifest with the evidence of all its dependencies has the key of its stage. -/
theorem evidence_key (hl : OneLineage requests lineage) (hspelled : SpelledAlike requests) {i : Nat} {stage : Stage}
    {read : List StageRun} (h : read.flatMap (·.evidenceRefs) =
      stage.dependencies.flatMap fun u => keyEvidence max work (stageKey max work (requests 0) u)) :
    (((requests i).manifest stage).withEvidence read).idempotencyKey = stageKey max work (requests 0) stage := by
  have huniverse : ∀ j, ((requests j).manifest stage).dagUniverse = lineage.dagUniverse := fun j => by
    rw [← hl.lineage j stage]; rfl
  rw [stageKey_eq, StageManifest.withEvidence, h]
  exact key_of_alike (hl.plain i) (hl.plain 0) (hspelled i) ((huniverse i).trans (huniverse 0).symm)

/-- A step of a delivery: what it does to the rows, and what then holds of the delivery. -/
theorem InStep.served (hl : OneLineage requests lineage) (hspelled : SpelledAlike requests) {s : Hatchet} {t : Task}
    {cue : Cue} {db : Database} {handler : Handler} (hi : InStep max work requests lineage s)
    (hstart : StartsAfterParents s (.task t cue)) (hwork : Determined work requests s (.task t cue))
    (h : Serves registered max ((requests t.run).manifest t.stage) s.db (s.task t) cue db handler) :
    OneRow (stageKey max work (requests 0)) lineage db.tables.runs ∧
      (∀ stage, RowKept (keyResult max work (stageKey max work (requests 0) stage)) (stageKey max work (requests 0) stage)
        s.db.tables.runs db.tables.runs) ∧
      ∀ s', s'.db = db → Keeps max work requests s s' → InTask max work requests s' t handler := by
  have hsame : ∀ stage, RowKept (keyResult max work (stageKey max work (requests 0) stage))
      (stageKey max work (requests 0) stage) s.db.tables.runs s.db.tables.runs := fun stage => ⟨id, id, hi.holds stage⟩
  have hlineage := hl.lineage t.run t.stage
  have htask := hi.tasks t
  rw [StartsAfterParents] at hstart
  generalize ht : s.task t = h₀ at h htask hstart
  cases h with
  | skip => exact ⟨hi.rows, hsame, fun s' _ _ => .inr ⟨by simp [flatAck], fun hne => absurd rfl hne⟩⟩
  | invalid | unregistered | drop => exact ⟨hi.rows, hsame, fun _ _ _ => trivial⟩
  | enter =>
    refine ⟨hi.rows, hsame, fun s' _ hk => ⟨fun u hu => ?_, [], rfl, rfl⟩⟩
    obtain ⟨d, ack, hack⟩ := hstart u hu
    exact ⟨d, ack, hk.acked _ _ hack⟩
  | @missing dep todo read now none =>
    rw [hlineage] at none
    obtain ⟨hparents, done, hdeps, -⟩ := htask
    have hdep : dep ∈ t.stage.dependencies := by rw [hdeps]; simp
    exact ⟨hi.rows, hsame, fun s' _ hk => UpstreamEnded.kept hk (hi.unselected hdep (hparents dep hdep) (select_missing none))⟩
  | @ambiguous dep todo read now tied =>
    rw [hlineage] at tied
    have := select_ambiguous tied
    have := hi.completeRows_length dep
    omega
  | @select dep todo read now r found =>
    rw [hlineage] at found
    obtain ⟨hparents, done, hdeps, hread⟩ := htask
    refine ⟨hi.rows, hsame, fun s' _ hk => ⟨fun u hu => ?_, done ++ [dep], ?_, ?_⟩⟩
    · obtain ⟨d, ack, hack⟩ := hparents u hu
      exact ⟨d, ack, hk.acked _ _ hack⟩
    · rw [hdeps, List.append_assoc]
      rfl
    · rw [List.flatMap_append, List.flatMap_append, hread, List.flatMap_singleton, List.flatMap_singleton, hi.selected found]
  | start =>
    obtain ⟨-, done, hdeps, hread⟩ := htask
    rw [List.append_nil] at hdeps
    refine ⟨hi.rows, hsame, fun s' _ _ => ⟨evidence_key hl hspelled ?_, trivial⟩⟩
    rw [hread]
    exact congrArg _ hdeps.symm
  | @run read p p' cue tables effect =>
    have hcue : ∀ result c n, cue = .work result → p = .working c n →
        work (((requests t.run).manifest t.stage).withEvidence read).idempotencyKey n = result := by
      rintro result c n rfl rfl
      simp only [Determined, ht] at hwork
      exact hwork
    obtain ⟨hrows, hfits, hkept⟩ := hi.ran hl ht hcue effect
    refine ⟨hrows, hkept, fun s' hs' _ => ?_⟩
    have htables : s'.db.tables.runs = tables.runs := by rw [hs']
    rw [← htables] at hfits
    cases p' with
    | returned r =>
      rcases hfits with ⟨hs, hc⟩ | ⟨hs, hthere⟩
      · exact .inl ⟨hs, hc⟩
      · exact .inr ⟨hs, fun _ => hthere⟩
    | raised | crashed => trivial
    | _ => exact ⟨htask.1, hfits⟩

theorem InStep.step (hl : OneLineage requests lineage) (hspelled : SpelledAlike requests) {s s' : Hatchet} {a : HatchetAct}
    (hi : InStep max work requests lineage s) (hstart : StartsAfterParents s a) (hwork : Determined work requests s a)
    (h : s.step registered max requests a = some s') : InStep max work requests lineage s' := by
  cases a with
  | jobs f =>
    cases h
    exact ⟨hi.rows, hi.holds, fun t => InTask.kept ⟨fun _ => id, fun _ => id, fun _ _ => id⟩ (hi.tasks t)⟩
  | task t cue =>
    obtain ⟨handler, hserves, htask⟩ := task_step h
    obtain ⟨hrows, hkept, hhandler⟩ := hi.served hl hspelled hstart hwork hserves
    have hkeeps : Keeps max work requests s s' := by
      refine ⟨fun stage => (hkept stage).there, fun stage => (hkept stage).complete, fun t' ack hack => ?_⟩
      rw [htask, upd_ne]
      · exact hack
      · rintro rfl
        exact serves_live hserves hack
    refine ⟨hrows, fun stage => (hkept stage).holds, fun t' => ?_⟩
    by_cases ht : t' = t
    · rw [ht, htask, upd_self]
      exact hhandler s' rfl hkeeps
    · rw [htask, upd_ne _ _ ht]
      exact InTask.kept hkeeps (hi.tasks t')

/-! ## Every run -/

theorem InStep.start {db : Database} (hfresh : FreshLineage requests lineage db.tables.runs) :
    InStep max work requests lineage { db := db } := by
  have hfree : ∀ stage, runOf db.tables.runs (stageKey max work (requests 0) stage) = none := by
    intro stage
    rw [runOf_none, stageKey_eq]
    exact fun r hr => hfresh.keys r hr stage _
  refine ⟨fun stage => ?_, fun stage r hr => ?_, fun _ => trivial⟩
  · rw [hfree, stageRows, List.filter_eq_nil_iff.2]
    · rfl
    · intro r hr
      simp [hfresh.rows r hr]
  · rw [hfree] at hr
    cases hr

/-- A source id as a client may send it, and as the job record gives it back. -/
def spelling : Nat → String
  | 0 => "6A09E667-F3BC-4C90-8B2F-1C1E5D7A0B42"
  | _ => "6a09e667-f3bc-4c90-8b2f-1c1e5d7a0b42"

/-- A submission and the retry of its job. -/
def retried (i : Nat) : RunRequest where
  jobId := "job"
  sourceId := some (spelling i)
  dagUniverse := ""
  stages := stageOrder

def retriedLineage : LineageId where
  source := pgUuid (spelling 0)
  dagUniverse := baseUniverse
  segment := none

/-- A job whose source is spelled as the record has it from the start. -/
def resubmitted (_ : Nat) : RunRequest := retried 1

theorem spelling_value (i : Nat) : pgUuid (spelling i) = pgUuid (spelling 0) := by
  have hlower : pgUuid (spelling 1) = pgUuid (spelling 0) := rfl
  cases i with
  | zero => rfl
  | succ i => exact hlower

theorem retried_lineage : OneLineage retried retriedLineage := by
  have hread : (pgUuid (spelling 0)).isSome = true := rfl
  obtain ⟨u, hu⟩ := Option.isSome_iff_exists.1 hread
  have hpy : ∀ i, pyUuid (spelling i) = pgUuid (spelling 0) := fun i => by
    rw [hu, pyUuid_of_pgUuid ((spelling_value i).trans hu)]
  constructor
  · exact fun _ => rfl
  · intro i stage
    simp only [StageManifest.lineage, RunRequest.manifest, manifestFor, retried, Option.bind_some, hpy]
    rfl
  · intro i text h
    cases h
    rw [spelling_value]
    exact hread

theorem resubmitted_lineage : OneLineage resubmitted retriedLineage :=
  ⟨fun _ => rfl, fun _ stage => retried_lineage.lineage 1 stage, fun _ text h => retried_lineage.source 1 text h⟩

/-- Work that always succeeds. -/
def succeeding : Uuid → Nat → WorkResult := fun _ _ => .ok {}

theorem succeeding_admitted {requests : Nat → RunRequest} {t : Task} {now : Nat} (s : Hatchet) (h : s.task t ≠ .idle) :
    StartsAfterParents s (.task t ((s.task t).cue (fun _ => .ok {}) now)) ∧
      Determined succeeding requests s (.task t ((s.task t).cue (fun _ => .ok {}) now)) := by
  refine ⟨startsAfterParents_begun h, ?_⟩
  cases ht : s.task t with
  | running read p =>
    cases p with
    | working => simp only [Handler.cue, Phase.cue, Determined, ht]; rfl
    | _ => trivial
  | _ => trivial

/-- A delivery of `INGEST` claims its row, if the key is free. -/
theorem ingest_claims {requests : Nat → RunRequest} (hl : OneLineage requests lineage) {s : Hatchet} {i : Nat}
    (ht : s.task ⟨i, .ingest, 0⟩ = .idle) (hskip : s.db.skips ((requests i).manifest .ingest) = false)
    (free : runOf s.db.tables.runs (((requests i).manifest .ingest).withEvidence []).idempotencyKey = none) :
    ∃ s', Run (Hatchet.step (fun _ => true) 3 requests)
        (fun s a => StartsAfterParents s a ∧ Determined succeeding requests s a) s s' ∧ s'.db.jobs = s.db.jobs ∧
      s'.db.tables.runs = s.db.tables.runs ++ [.of (((requests i).manifest .ingest).withEvidence []).idempotencyKey
        (((requests i).manifest .ingest).withEvidence []) 0] ∧ ∀ t, t ≠ ⟨i, .ingest, 0⟩ → s'.task t = s.task t := by
  obtain ⟨p, hdrive, -⟩ := @drive_claim 3 (fun _ => .ok {}) 0 _ _ free
  have huuids : ((requests i).manifest .ingest).hasUuids = true := by
    cases hs : (requests i).sourceId with
    | none => simp [StageManifest.hasUuids, RunRequest.manifest, manifestFor, hs]
    | some text =>
      obtain ⟨u, hu⟩ := Option.isSome_iff_exists.1 (hl.source i text hs)
      simp [StageManifest.hasUuids, RunRequest.manifest, manifestFor, hs, pyUuid_of_pgUuid hu]
  have hfirst : StartsAfterParents s (.task ⟨i, .ingest, 0⟩ (.next 0)) ∧
      Determined succeeding requests s (.task ⟨i, .ingest, 0⟩ (.next 0)) := by
    refine ⟨?_, trivial⟩
    rw [StartsAfterParents, ht]
    intro u hu
    cases hu
  have hrun := @delivery_drive (fun _ => true) 3 requests
    (fun s a => StartsAfterParents s a ∧ Determined succeeding requests s a) (fun _ => .ok {}) 0 ⟨i, .ingest, 0⟩ succeeding_admitted s
    hfirst ht hskip huuids rfl [] rfl 1
  rw [hdrive] at hrun
  exact ⟨_, hrun, rfl, rfl, fun t hne => upd_ne _ _ hne⟩

end Umd.Jobs
