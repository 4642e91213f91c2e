import Umd.Jobs.PostgresJobs
import Umd.Jobs.Executor
/-!
# The durable runner

`run_graph` of `DurableDAGRunner` over a world of job records and tables, which
others may change before each turn. Inside a turn the executor runs alone.
`take_taken` says once what a turn does.
-/

namespace Umd.Jobs

open Umd.Lib Umd.Events Umd.Ledger

/-! ## `run_graph` -/

/-- What a runner reads and writes: the job store, and the tables of the executor in the same world. -/
structure Backend (σ : Type) where
  jobs : JobStore σ
  tables : σ → RunStore
  withTables : σ → RunStore → σ

/-- The job store and the tables of a `Database`. -/
def postgres : Backend Database where
  jobs := Database.store
  tables := (·.tables)
  withTables := fun db tables => { db with tables := tables }

/-- A call of `run_graph`, with what it meets. -/
structure GraphCall (σ : Type) where
  backend : Backend σ
  registry : Stage → Option Work
  /-- `retry.max_attempts` -/
  maxAttempts : Nat
  request : RunRequest
  /-- What others do to the world before a turn. -/
  outside : Nat → σ → σ := fun _ w => w
  /-- The time at which a turn claims. -/
  clock : Nat → Nat := fun n => n

/-- A turn of the loop: a stage, the refs committed before it, and the world the turn finds. -/
structure Turn (σ : Type) where
  number : Nat
  stage : Stage
  prior : List String
  world : σ

inductive TurnEnd (σ : Type) where
  /-- The job is gone, cancelled or paused. -/
  | stopped
  | next (world : σ) (event : StageRunEvent) (prior : List String)
  | raised (world : σ) (error : ExecError)

/-- `_committed_refs` -/
def committedRefs (record : StageRunRecord) (prior : List String) : List String :=
  match record.outcome with
  | none => prior
  | some outcome => outcome.artifactRefs.foldl (fun merged ref => if ref ∈ merged then merged else merged ++ [ref]) prior

variable {σ : Type}

namespace GraphCall

/-- `_observe` -/
def observe (g : GraphCall σ) (w : σ) (stage : Stage) (status : StageStatus) (key : Option Uuid) (attempts : Nat) : σ :=
  g.backend.jobs.recordStage w g.request.jobId { stageName := stage, status, idempotencyKey := key, attempts }

def manifest (g : GraphCall σ) (t : Turn σ) : StageManifest :=
  manifestFor g.request.jobId g.request.sourceId g.request.dagUniverse t.stage t.prior g.request.rerunCausation

/-- The executor's part of a turn. -/
def executed (g : GraphCall σ) (t : Turn σ) (work : Work) : RunStore × Phase :=
  execute g.maxAttempts (g.manifest t) (work (g.manifest t)) (g.clock t.number) (g.backend.tables t.world)

/-- One turn of the loop. -/
def take (g : GraphCall σ) (t : Turn σ) : TurnEnd σ :=
  match g.backend.jobs.get t.world g.request.jobId with
  | none => .stopped
  | some job =>
    -- a whole-job cancel or pause stops scheduling
    if job.status = .cancelled ∨ job.status = .paused then .stopped
    else if t.stage ∈ job.cancelledStages then
      .next (g.observe t.world t.stage .cancelled none 0) { stage := t.stage, status := .cancelled, replayed := true } t.prior
    else
      match g.registry t.stage with
      | none => .next (g.observe t.world t.stage .pending none 0) { stage := t.stage, status := .pending } t.prior
      | some work =>
        match g.executed t work with
        | (tables, .returned record) =>
          .next
            (g.observe (g.backend.withTables t.world tables) t.stage record.state (some record.claim.idempotencyKey)
              record.attempts)
            { stage := t.stage, status := record.state, replayed := record.replayed }
            (if record.state = .complete then committedRefs record t.prior else t.prior)
        | (tables, .raised error) => .raised (g.backend.withTables t.world tables) error
        -- not reached: a call alone returns or raises
        | (_, _) => .stopped

end GraphCall

/-- The job lets the turn's stage be scheduled. -/
structure GraphCall.Live (g : GraphCall σ) (t : Turn σ) (job : JobRecord) : Prop where
  found : g.backend.jobs.get t.world g.request.jobId = some job
  running : ¬ (job.status = .cancelled ∨ job.status = .paused)

/-- What a turn does, by the reason. -/
inductive Taken (g : GraphCall σ) (t : Turn σ) : TurnEnd σ → Prop
  | stopped (h : ∀ job, ¬ g.Live t job) : Taken g t .stopped
  | cancelled {job : JobRecord} (live : g.Live t job) (h : t.stage ∈ job.cancelledStages) :
      Taken g t (.next (g.observe t.world t.stage .cancelled none 0)
        { stage := t.stage, status := .cancelled, replayed := true } t.prior)
  | idle {job : JobRecord} (live : g.Live t job) (open' : t.stage ∉ job.cancelledStages) (h : g.registry t.stage = none) :
      Taken g t (.next (g.observe t.world t.stage .pending none 0) { stage := t.stage, status := .pending } t.prior)
  | ran {job : JobRecord} {work : Work} {tables : RunStore} {record : StageRunRecord} (live : g.Live t job)
      (open' : t.stage ∉ job.cancelledStages) (hwork : g.registry t.stage = some work)
      (h : g.executed t work = (tables, .returned record)) :
      Taken g t (.next
        (g.observe (g.backend.withTables t.world tables) t.stage record.state (some record.claim.idempotencyKey)
          record.attempts)
        { stage := t.stage, status := record.state, replayed := record.replayed }
        (if record.state = .complete then committedRefs record t.prior else t.prior))
  | raised {job : JobRecord} {work : Work} {tables : RunStore} {e : ExecError} (live : g.Live t job)
      (open' : t.stage ∉ job.cancelledStages) (hwork : g.registry t.stage = some work)
      (h : g.executed t work = (tables, .raised e)) :
      Taken g t (.raised (g.backend.withTables t.world tables) e)

/-- A turn ends in one of these ways. -/
theorem take_taken (g : GraphCall σ) (t : Turn σ) : Taken g t (g.take t) := by
  unfold GraphCall.take
  split
  · rename_i hnone
    exact .stopped fun job hlive => by rw [hlive.found] at hnone; cases hnone
  rename_i job hjob
  split
  · rename_i hst
    refine .stopped fun job' hlive => ?_
    have hjob' := hlive.found
    rw [hjob] at hjob'
    cases hjob'
    exact hlive.running hst
  rename_i hst
  have hlive : g.Live t job := ⟨hjob, hst⟩
  split
  · exact .cancelled hlive ‹_›
  rename_i hopen
  split
  · exact .idle hlive hopen ‹_›
  rename_i work hwork
  split
  · exact .ran hlive hopen hwork ‹_›
  · exact .raised hlive hopen hwork ‹_›
  · rename_i tables p hreturned hraised hrun
    have hp : (g.executed t work).2 = p := by rw [hrun]
    rw [GraphCall.executed] at hp
    rcases execute_ends g.maxAttempts (g.manifest t) (work (g.manifest t)) (g.clock t.number) (g.backend.tables t.world)
      with ⟨r, hr⟩ | ⟨e, he⟩
    · exact (hreturned r (hp.symm.trans hr)).elim
    · exact (hraised e (hp.symm.trans he)).elim

theorem take_ran {g : GraphCall σ} {t : Turn σ} {job : JobRecord} {work : Work} {tables : RunStore} {record : StageRunRecord}
    (live : g.Live t job) (open' : t.stage ∉ job.cancelledStages) (hwork : g.registry t.stage = some work)
    (h : g.executed t work = (tables, .returned record)) :
    g.take t = .next
      (g.observe (g.backend.withTables t.world tables) t.stage record.state (some record.claim.idempotencyKey) record.attempts)
      { stage := t.stage, status := record.state, replayed := record.replayed }
      (if record.state = .complete then committedRefs record t.prior else t.prior) := by
  simp only [GraphCall.take, live.found, live.running, if_false, open', hwork, h]

/-- What a call of `run_graph` leaves and returns, and the turns it took. -/
structure GraphRun (σ : Type) where
  world : σ
  turns : List (Turn σ) := []
  events : List StageRunEvent := []
  raised : Option ExecError := none

namespace GraphCall

/-- The loop from its `n`-th turn on. -/
def loop (g : GraphCall σ) : Nat → List Stage → List String → σ → GraphRun σ
  | _, [], _, w => { world := w }
  | n, stage :: stages, prior, w =>
    let t : Turn σ := { number := n, stage, prior, world := g.outside n w }
    match g.take t with
    | .stopped => { world := t.world }
    | .raised world error => { world, turns := [t], raised := some error }
    | .next world event prior =>
      let rest := g.loop (n + 1) stages prior world
      { rest with turns := t :: rest.turns, events := event :: rest.events }

/-- `run_graph`, from the refs `_seed_prior_refs` reads. -/
def run (g : GraphCall σ) (w : σ) : GraphRun σ :=
  g.loop 0 g.request.stages
    (committedPriorRefs (g.backend.tables w).runs g.request.jobId g.request.stages.head?) w

end GraphCall

/-! ## What a turn gets to -/

namespace GraphCall

/-- The work of the turn's stage is invoked. -/
def Invokes (g : GraphCall σ) (t : Turn σ) : Prop :=
  ∃ job work, g.backend.jobs.get t.world g.request.jobId = some job ∧ ¬ (job.status = .cancelled ∨ job.status = .paused) ∧
    t.stage ∉ job.cancelledStages ∧ g.registry t.stage = some work ∧
    Invoked g.maxAttempts (g.manifest t) (work (g.manifest t)) (g.clock t.number) (g.backend.tables t.world)

def Cancelled (g : GraphCall σ) (t : Turn σ) : Prop :=
  ∃ job, g.backend.jobs.get t.world g.request.jobId = some job ∧ t.stage ∈ job.cancelledStages

/-- The row of the turn's key. -/
def rowStatus (g : GraphCall σ) (t : Turn σ) : Option StageStatus :=
  existingRun (g.backend.tables t.world).runs (g.manifest t).idempotencyKey

/-- The turn gets to its work: the stage is not cancelled, it has work, and the row of its key has not ended. -/
def Works (g : GraphCall σ) (t : Turn σ) : Prop :=
  ¬ g.Cancelled t ∧ g.registry t.stage ≠ none ∧ ¬ RowEnded (g.backend.tables t.world).runs (g.manifest t).idempotencyKey

end GraphCall

/-- The job a live turn reads is the one that says whether its stage is cancelled. -/
theorem GraphCall.Live.cancelled_iff {g : GraphCall σ} {t : Turn σ} {job : JobRecord} (h : g.Live t job) :
    g.Cancelled t ↔ t.stage ∈ job.cancelledStages := by
  simp only [GraphCall.Cancelled, h.found, Option.some.injEq, exists_eq_left']

/-- A turn that is taken invokes its work exactly where it gets to it. -/
theorem invokes_iff {g : GraphCall σ} {t : Turn σ} (h : g.take t ≠ .stopped) : g.Invokes t ↔ g.Works t := by
  have hlive : ∃ job, g.Live t job := by
    have htaken := take_taken g t
    generalize g.take t = r at h htaken
    cases htaken with
    | stopped => exact absurd rfl h
    | cancelled live | idle live | ran live | raised live => exact ⟨_, live⟩
  obtain ⟨job, hlive⟩ := hlive
  simp only [GraphCall.Invokes, hlive.found, Option.some.injEq, exists_and_left, exists_eq_left', hlive.running,
    not_false_eq_true, true_and, invoked_iff, GraphCall.Works, hlive.cancelled_iff, Option.ne_none_iff_exists',
    exists_and_right]

/-! ## The turns of a loop -/

/-- The event a turn adds. -/
def GraphCall.event? (g : GraphCall σ) (t : Turn σ) : Option StageRunEvent :=
  match g.take t with
  | .next _ ev _ => some ev
  | _ => none

/-- The turns of a loop: stages from its list in their order, each taken, with the events in the same order. -/
structure Turns (g : GraphCall σ) (stages : List Stage) (r : GraphRun σ) : Prop where
  sublist : (r.turns.map (·.stage)).Sublist stages
  taken : ∀ t ∈ r.turns, g.take t ≠ .stopped
  events : r.events = r.turns.filterMap g.event?

theorem loop_turns (g : GraphCall σ) (n : Nat) (stages : List Stage) (prior : List String) (w : σ) :
    Turns g stages (g.loop n stages prior w) := by
  induction stages generalizing n prior w with
  | nil => exact ⟨.slnil, nofun, rfl⟩
  | cons stage stages ih =>
    unfold GraphCall.loop
    dsimp only
    generalize ht : ({ number := n, stage, prior, world := g.outside n w } : Turn σ) = t
    have hstage : t.stage = stage := by rw [← ht]
    split
    · exact ⟨List.nil_sublist _, nofun, rfl⟩
    · rename_i w' e htake
      refine ⟨?_, ?_, ?_⟩
      · simp [hstage]
      · simp [htake]
      · simp [GraphCall.event?, htake]
    · rename_i w' ev prior' htake
      have ih := ih (n + 1) prior' w'
      refine ⟨?_, ?_, ?_⟩
      · rw [List.map_cons, hstage]; exact ih.sublist.cons_cons stage
      · intro t' ht'
        rcases List.mem_cons.1 ht' with rfl | ht'
        · rw [htake]; exact nofun
        · exact ih.taken t' ht'
      · rw [List.filterMap_cons, GraphCall.event?, htake]
        exact congrArg _ ih.events

theorem loop_next {g : GraphCall σ} {n : Nat} {stage : Stage} {stages : List Stage} {prior prior' : List String} {w w' : σ}
    {ev : StageRunEvent} (h : g.take { number := n, stage, prior, world := g.outside n w } = .next w' ev prior') :
    g.loop n (stage :: stages) prior w =
      { g.loop (n + 1) stages prior' w' with
        turns := { number := n, stage, prior, world := g.outside n w } :: (g.loop (n + 1) stages prior' w').turns
        events := ev :: (g.loop (n + 1) stages prior' w').events } := by
  simp only [GraphCall.loop, h]

theorem take_live {g : GraphCall σ} {t : Turn σ} {job : JobRecord} (h : g.Live t job) : g.take t ≠ .stopped := by
  intro hstop
  have htaken := take_taken g t
  rw [hstop] at htaken
  cases htaken with
  | stopped hnone => exact hnone job h

theorem mem_loop {g : GraphCall σ} {n : Nat} {stage : Stage} {stages : List Stage} {prior : List String} {w : σ}
    (h : g.take { number := n, stage, prior, world := g.outside n w } ≠ .stopped) :
    { number := n, stage, prior, world := g.outside n w } ∈ (g.loop n (stage :: stages) prior w).turns := by
  unfold GraphCall.loop
  dsimp only
  split
  · exact absurd ‹_› h
  · exact List.mem_cons_self ..
  · exact List.mem_cons_self ..

/-! ## A call that nobody else disturbs -/

/-- A call over a database that only it changes. -/
def alone (registry : Stage → Option Work) (maxAttempts : Nat) (request : RunRequest) (clock : Nat → Nat) :
    GraphCall Database where
  backend := postgres
  registry := registry
  maxAttempts := maxAttempts
  request := request
  clock := clock

section Alone

variable {registry : Stage → Option Work} {maxAttempts : Nat} {request : RunRequest} {clock : Nat → Nat}

/-- A turn leaves the rows of every key of another stage of its universe. -/
theorem take_other {t : Turn Database} {db : Database} {ev : StageRunEvent} {prior : List String}
    (h : (alone registry maxAttempts request clock).take t = .next db ev prior) {m : StageManifest}
    (hu : m.dagUniverse = ((alone registry maxAttempts request clock).manifest t).dagUniverse) (hs : m.stageName ≠ t.stage) :
    runOf db.tables.runs m.idempotencyKey = runOf t.world.tables.runs m.idempotencyKey := by
  have htaken := take_taken (alone registry maxAttempts request clock) t
  rw [h] at htaken
  cases htaken with
  | cancelled | idle => rfl
  | @ran job work tables record live open' hwork hrun =>
    have hk : m.idempotencyKey ≠ ((alone registry maxAttempts request clock).manifest t).idempotencyKey :=
      fun hk => hs (stage_of_key hu hk)
    have hrow := @execute_other maxAttempts _ (work ((alone registry maxAttempts request clock).manifest t))
      (clock t.number) t.world.tables _ hk
    rw [show execute maxAttempts _ _ (clock t.number) t.world.tables = _ from hrun] at hrow
    exact hrow

/-- **Every turn finds the row of its key as the call found it.** -/
theorem loop_row {n : Nat} {stages : List Stage} {prior : List String} {db : Database} (hn : stages.Nodup) :
    ∀ t ∈ ((alone registry maxAttempts request clock).loop n stages prior db).turns, ∀ m : StageManifest,
      m.dagUniverse = ((alone registry maxAttempts request clock).manifest t).dagUniverse → m.stageName = t.stage →
      runOf t.world.tables.runs m.idempotencyKey = runOf db.tables.runs m.idempotencyKey := by
  induction stages generalizing n prior db with
  | nil => intro t ht; cases ht
  | cons stage stages ih =>
    intro t ht m hu hs
    unfold GraphCall.loop at ht
    dsimp only at ht
    split at ht
    · cases ht
    · rw [List.mem_singleton.1 ht]; rfl
    · rename_i db' ev prior' htake
      rcases List.mem_cons.1 ht with rfl | ht
      · rfl
      · have hmem : t.stage ∈ stages := (loop_turns _ (n + 1) stages prior' db').sublist.subset (List.mem_map_of_mem ht)
        have hne : t.stage ≠ stage := fun he => (List.nodup_cons.1 hn).1 (he ▸ hmem)
        rw [ih (List.nodup_cons.1 hn).2 t ht m hu hs]
        exact take_other htake hu (hs ▸ hne)

end Alone

end Umd.Jobs
