import Umd.Jobs.Runner
/-!
# Dependents of a stage that did not complete

The loop of the durable runner asks nothing of the stages it has already taken.
As every stage depends on every earlier one, the work of a stage is invoked
after an upstream stage failed, was cancelled or had no work, unless nothing
after that stage gets to its work (`dependents_wait_iff`).
-/

namespace Umd.Jobs

open Umd.Lib Umd.Events Umd.Ledger

variable {σ : Type}

/-- The statuses of a stage that did not complete and does not end the run. -/
def unfinished : List StageStatus := [.failed, .cancelled, .pending]

namespace GraphCall

/-- Every attempt of the turn's work ends in an exception that is retried. -/
def AttemptsFail (g : GraphCall σ) (t : Turn σ) : Prop :=
  ∀ work, g.registry t.stage = some work → ∀ i, 1 ≤ i → i ≤ 1 + (g.maxAttempts - 1) →
    ∃ text, work (g.manifest t) i = .error text

/-- The turn ends without its stage being complete: the stage is cancelled, has no work, has a row that was cancelled,
or fails in every attempt. -/
def EndsUnfinished (g : GraphCall σ) (t : Turn σ) : Prop :=
  g.Cancelled t ∨ g.registry t.stage = none ∨ g.rowStatus t = some .cancelled ∨ g.Works t ∧ g.AttemptsFail t

end GraphCall

/-! ## One turn -/

section Execute

variable {max : Nat} {m : StageManifest} {work : Nat → WorkResult} {now : Nat} {s : RunStore}

theorem drive_replaying {c : StageRunClaim} {r : StageRunRecord}
    (h : (drive max m work now 2 (s, .replaying c)).2 = .returned r) : r.state = .complete := by
  simp only [drive, Phase.cue, Phase.step] at h
  split at h
  · cases h
  · rename_i x hx
    split at hx
    · cases hx
      dsimp only at h
      cases ha : append s.ledger (observation m c (committedOutcome s.runs c.idempotencyKey)) with
      | mk db result =>
        rw [ha] at h
        cases result with
        | error e => cases h
        | ok result => cases h; rfl
    · cases hx
      cases h; rfl

theorem drive_completing {c : StageRunClaim} {n : Nat} {o : StageOutcome} {r : StageRunRecord}
    (h : (drive max m work now 2 (s, .completing c n o)).2 = .returned r) : r.state = .complete := by
  simp only [drive, Phase.cue, Phase.step] at h
  cases hc : complete s m c.idempotencyKey o with
  | mk s' result =>
    rw [hc] at h
    cases result with
    | error e => cases h
    | ok result => cases h; rfl

/-- What a call alone returns is unfinished where the row was cancelled, or where it is open and every attempt fails. -/
theorem execute_unfinished_iff :
    (∃ r, (execute max m work now s).2 = .returned r ∧ r.state ∈ unfinished) ↔
      existingRun s.runs m.idempotencyKey = some .cancelled ∨
        ¬ RowEnded s.runs m.idempotencyKey ∧ ∀ i, 1 ≤ i → i ≤ 1 + (max - 1) → ∃ text, work i = .error text := by
  by_cases hended : RowEnded s.runs m.idempotencyKey
  · simp only [hended, not_true_eq_false, false_and, or_false]
    simp only [RowEnded, List.mem_cons, List.not_mem_nil, or_false] at hended
    rcases hended with h | h | h
    · rw [h]
      refine iff_of_false ?_ fun hc => by cases hc
      rintro ⟨r, hr, hst⟩
      rw [execute_complete h] at hr
      rw [drive_replaying hr] at hst
      simp [unfinished] at hst
    · rw [h]
      refine iff_of_true ⟨_, by rw [execute_skipped (.inl rfl) h], ?_⟩ rfl
      simp [unfinished]
    · rw [h]
      refine iff_of_false ?_ fun hc => by cases hc
      rintro ⟨r, hr, hst⟩
      rw [execute_skipped (.inr rfl) h] at hr
      cases hr
      simp [unfinished] at hst
  · have hcancelled : existingRun s.runs m.idempotencyKey ≠ some .cancelled := by
      rintro h; exact hended (by simp [RowEnded, h])
    simp only [hended, not_false_eq_true, true_and, hcancelled, false_or]
    rw [execute_open hended, ← settle_error_iff]
    cases hs : settle work (max - 1) 1 with
    | mk n result =>
      cases result with
      | ok o =>
        refine iff_of_false ?_ (by simp)
        rintro ⟨r, hr, hst⟩
        rw [drive_completing hr] at hst
        simp [unfinished] at hst
      | malformed reason locator =>
        refine iff_of_false ?_ (by simp)
        rintro ⟨r, hr, -⟩
        cases hr
      | error text => exact iff_of_true ⟨_, rfl, by simp [unfinished]⟩ ⟨text, rfl⟩

end Execute

/-- A turn that is executed is unfinished exactly where the executor returns an unfinished record. -/
theorem executed_unfinished_iff {g : GraphCall σ} {t : Turn σ} {job : JobRecord} {work : Work} (hlive : g.Live t job)
    (hopen : t.stage ∉ job.cancelledStages) (hwork : g.registry t.stage = some work) :
    g.EndsUnfinished t ↔ ∃ r, (g.executed t work).2 = .returned r ∧ r.state ∈ unfinished := by
  rw [GraphCall.executed, execute_unfinished_iff]
  simp only [GraphCall.EndsUnfinished, GraphCall.Works, GraphCall.AttemptsFail, GraphCall.rowStatus,
    hlive.cancelled_iff, hopen, hwork, not_false_eq_true, reduceCtorEq, ne_eq, true_and, false_or, Option.some.injEq,
    forall_eq']

/-- The event of a turn that goes on is about its stage, and unfinished exactly where the turn is. -/
theorem take_next {g : GraphCall σ} {t : Turn σ} {w : σ} {ev : StageRunEvent} {prior : List String}
    (h : g.take t = .next w ev prior) : ev.stage = t.stage ∧ (ev.status ∈ unfinished ↔ g.EndsUnfinished t) := by
  have htaken := take_taken g t
  rw [h] at htaken
  cases htaken with
  | cancelled hlive hc => exact ⟨rfl, iff_of_true (by simp [unfinished]) (.inl (hlive.cancelled_iff.2 hc))⟩
  | idle hlive hopen hwork => exact ⟨rfl, iff_of_true (by simp [unfinished]) (.inr (.inl hwork))⟩
  | ran hlive hopen hwork hrun =>
    refine ⟨rfl, ?_⟩
    rw [executed_unfinished_iff hlive hopen hwork, hrun]
    simp

/-- A turn that raises is not unfinished. -/
theorem take_raised {g : GraphCall σ} {t : Turn σ} {w : σ} {e : ExecError} (h : g.take t = .raised w e) :
    ¬ g.EndsUnfinished t := by
  have htaken := take_taken g t
  rw [h] at htaken
  cases htaken with
  | raised hlive hopen hwork hrun =>
    rw [executed_unfinished_iff hlive hopen hwork, hrun]
    simp

/-! ## The loop -/

/-- In a list sorted by a number, a relation holds pairwise when it holds of every smaller and larger element. -/
theorem pairwise_iff_of_lt {α : Type} {f : α → Nat} {R : α → α → Prop} {l : List α} (h : l.Pairwise fun a b => f a < f b) :
    l.Pairwise R ↔ ∀ a ∈ l, ∀ b ∈ l, f a < f b → R a b := by
  induction l with
  | nil => simp
  | cons x l ih =>
    obtain ⟨hx, hl⟩ := List.pairwise_cons.1 h
    rw [List.pairwise_cons, ih hl]
    constructor
    · rintro ⟨hR, hrest⟩ a ha b hb hab
      rcases List.mem_cons.1 ha with rfl | ha'
      · rcases List.mem_cons.1 hb with rfl | hb'
        · omega
        · exact hR b hb'
      · rcases List.mem_cons.1 hb with rfl | hb'
        · have := hx a ha'; omega
        · exact hrest a ha' b hb' hab
    · intro hall
      exact ⟨fun b hb => hall x (by simp) b (by simp [hb]) (hx b hb),
        fun a ha b hb => hall a (by simp [ha]) b (by simp [hb])⟩

/-- **No stage works after a listed upstream stage failed, was cancelled or had no work, exactly where nothing after an
unfinished turn gets to its work.** -/
theorem dependents_wait_iff (g : GraphCall σ) (w : σ) (hstages : DependencyOrdered g.request.stages) :
    (∀ t ∈ (g.run w).turns, g.Invokes t → ∀ ev ∈ (g.run w).events, Upstream ev.stage t.stage →
        ev.status ∉ unfinished) ↔
      (g.run w).turns.Pairwise fun t t' => g.EndsUnfinished t → ¬ g.Works t' := by
  have hturns : Turns g g.request.stages (g.run w) := loop_turns ..
  have hstage : ((g.run w).turns.map (·.stage)).Pairwise fun s s' => s.index < s'.index :=
    (dependencyOrdered_iff.1 hstages).sublist hturns.sublist
  have hsorted := (List.pairwise_map (R := fun s s' : Stage => s.index < s'.index)).1 hstage
  rw [pairwise_iff_of_lt hsorted, hturns.events]
  constructor
  · intro h t ht t' ht' hlt hends hworks
    have hinv := (invokes_iff (hturns.taken t' ht')).2 hworks
    cases htake : g.take t with
    | stopped => exact hturns.taken t ht htake
    | raised w' e => exact take_raised htake hends
    | next w' ev prior =>
      obtain ⟨hstage, hiff⟩ := take_next htake
      refine h t' ht' hinv ev (List.mem_filterMap.2 ⟨t, ht, by rw [GraphCall.event?, htake]⟩) ?_ (hiff.2 hends)
      rw [hstage]
      exact upstream_iff.2 hlt
  · intro h t' ht' hinv ev hev hup hbad
    obtain ⟨t, ht, hev⟩ := List.mem_filterMap.1 hev
    rw [GraphCall.event?] at hev
    split at hev
    · rename_i w' ev' prior htake
      cases hev
      obtain ⟨hstage, hiff⟩ := take_next htake
      rw [hstage] at hup
      exact h t ht t' ht' (upstream_iff.1 hup) (hiff.1 hbad) ((invokes_iff (hturns.taken t' ht')).1 hinv)
    · cases hev

/-! ## A run that goes on -/

/-- Two stages of a job, the first of which fails in its only attempt. -/
def failsFirst : GraphCall Database where
  backend := postgres
  registry := fun stage => if stage = .basicSegmentation then some fun _ _ => .error "down" else some fun _ _ => .ok {}
  maxAttempts := 1
  request := { jobId := "job", sourceId := some "source", dagUniverse := "", stages := [.basicSegmentation, .lowLevelExtraction] }

/-- A database with one running job. -/
def oneJob : Database where
  jobs := fun id => if id = "job" then some { id := "job", sourceId := none, dagUniverse := "", status := .running } else none

theorem dependents_wait_two :
    (∀ t ∈ (failsFirst.run oneJob).turns, failsFirst.Invokes t → ∀ ev ∈ (failsFirst.run oneJob).events,
        Upstream ev.stage t.stage → ev.status ∉ unfinished) ↔
      (failsFirst.run oneJob).turns.Pairwise fun t t' => failsFirst.EndsUnfinished t → ¬ failsFirst.Works t' :=
  dependents_wait_iff failsFirst oneJob (dependencyOrdered_iff.2 (by decide))

/-- The second stage works on without what the first was to commit. -/
theorem dependent_works :
    ∃ t ∈ (failsFirst.run oneJob).turns, failsFirst.Invokes t ∧
      ∃ ev ∈ (failsFirst.run oneJob).events, Upstream ev.stage t.stage ∧ ev.status = .failed := by
  let t : Turn Database := { number := 0, stage := .basicSegmentation, prior := [], world := oneJob }
  let failed : List StageRun :=
    markRun [.of (failsFirst.manifest t).idempotencyKey (failsFirst.manifest t) 0] (failsFirst.manifest t).idempotencyKey .failed
  have hrow : ¬ RowEnded oneJob.tables.runs (failsFirst.manifest t).idempotencyKey := by
    simp [RowEnded, existingRun, runOf, oneJob]
  have hrun : ∃ r, failsFirst.executed t (fun _ _ => .error "down") = ({ runs := failed }, .returned r) ∧ r.state = .failed := by
    refine ⟨{ claim := (claim [] (failsFirst.manifest t) 0).2, state := .failed, attempts := 1, error := some "down" }, ?_, rfl⟩
    rw [GraphCall.executed]
    exact execute_open hrow
  obtain ⟨r, hrun, hr⟩ := hrun
  have hlive : failsFirst.Live t { id := "job", sourceId := none, dagUniverse := "", status := .running } := ⟨rfl, by decide⟩
  have htake := take_ran hlive (Finset.notMem_empty _) rfl hrun
  rw [hr, if_neg (by decide)] at htake
  -- the second turn finds the row of the first, failed
  let t' : Turn Database := { number := 1, stage := .lowLevelExtraction, prior := [], world := { oneJob with tables := { runs := failed } } }
  have hlive' : failsFirst.Live t' { id := "job", sourceId := none, dagUniverse := "", status := .running } := ⟨rfl, by decide⟩
  have hopen : ¬ RowEnded failed (failsFirst.manifest t').idempotencyKey := by
    rw [RowEnded, existingRun_markRun]
    simp only [existingRun, runOf, List.find?_singleton]
    split <;> split <;> simp [StageRun.of]
  have hloop : failsFirst.run oneJob = _ := loop_next htake
  refine ⟨t', ?_, ⟨_, _, hlive'.found, hlive'.running, Finset.notMem_empty _, rfl, invoked_iff.2 hopen⟩,
    { stage := .basicSegmentation, status := .failed, replayed := r.replayed }, ?_, ?_, rfl⟩
  · rw [hloop]
    exact List.mem_cons_of_mem _ (mem_loop (take_live hlive'))
  · rw [hloop]
    exact List.mem_cons_self ..
  · exact upstream_iff.2 (show Stage.basicSegmentation.index < Stage.lowLevelExtraction.index by decide)

end Umd.Jobs
