import Umd.Lib.Steps
import Umd.Jobs.StageRuns
/-!
# Durable stage execution

One call of `DurableStageExecutor.run` as a machine over the tables: claim,
status read, work attempts, and the completion, failure or quarantine that ends
it. A step is one transaction or one return of the work function, so any number
of calls can be interleaved; a call may crash between steps. `Effect` says once
what a step does to the tables.
-/

namespace Umd.Jobs

open Umd.Lib Umd.Events Umd.Ledger

structure StageRunRecord where
  claim : StageRunClaim
  outcome : Option StageOutcome := none
  state : StageStatus
  attempts : Nat := 1
  error : Option String := none
  completionSeq : Option Nat := none
  replayed : Bool := false

/-- What one invocation of a work function ends with. -/
inductive WorkResult where
  | ok (outcome : StageOutcome)
  /-- `MalformedInputError`. -/
  | malformed (reason locator : String)
  /-- Any other exception. -/
  | error (text : String)

inductive ExecError where
  /-- `StageQuarantinedError`. -/
  | quarantined (stage : Stage) (reason locator : String)
  | append (e : AppendError)
deriving DecidableEq

/-- Where a call stands. -/
inductive Phase where
  | start
  /-- The claim was lost. -/
  | lost (claim : StageRunClaim)
  /-- The row was read as complete. -/
  | replaying (claim : StageRunClaim)
  /-- The refs of a row of another job are read and not yet observed in the ledger. -/
  | observing (claim : StageRunClaim) (outcome : StageOutcome)
  /-- The work function is running. -/
  | working (claim : StageRunClaim) (attempt : Nat)
  | completing (claim : StageRunClaim) (attempt : Nat) (outcome : StageOutcome)
  | failing (claim : StageRunClaim) (attempt : Nat) (error : String)
  | sinking (claim : StageRunClaim) (reason locator : String)
  | quarantining (claim : StageRunClaim) (reason locator : String)
  | returned (record : StageRunRecord)
  | raised (e : ExecError)
  | crashed

/-- What happens next: a transaction of the call at some time, the return of its work, or a crash. -/
inductive Cue where
  | next (now : Nat)
  | work (result : WorkResult)
  | crash

/-- `_locator_of` -/
def locatorOf (m : StageManifest) : String :=
  let seg := match m.segmentId with
    | some s => if s = "" then "root" else s
    | none => "root"
  let source := match m.sourceId with
    | some s => if s = "" then "?" else s
    | none => "?"
  "source:" ++ source ++ "#segment:" ++ seg ++ "#stage:" ++ m.stageName.name

def locatorOr (locator : String) (m : StageManifest) : String := if locator = "" then locatorOf m else locator

/-- The refs `_replayed_complete` reads back. -/
def committedOutcome (runs : List StageRun) (key : Uuid) : StageOutcome :=
  match runOf runs key with
  | some row => { artifactRefs := row.artifactRefs, evidenceRefs := row.evidenceRefs }
  | none => {}

def replayedRecord (claim : StageRunClaim) (outcome : StageOutcome) : StageRunRecord :=
  { claim, outcome := some outcome, state := .complete, replayed := true }

namespace Phase

def isOver : Phase → Bool
  | .returned _ | .raised _ | .crashed => true
  | _ => false

/-- One step of a call of `run` with manifest `m` and `retry.max_attempts = max`. -/
def step (max : Nat) (m : StageManifest) (s : RunStore) : Phase → Cue → Option (RunStore × Phase)
  | .start, .next now =>
    let (runs, claim) := claim s.runs m now
    some ({ s with runs := runs }, if claim.won then .working claim 1 else .lost claim)
  | .lost claim, .next _ =>
    match existingRun s.runs claim.idempotencyKey with
    | some .complete => some (s, .replaying claim)
    | some .cancelled => some (s, .returned { claim, state := .cancelled, replayed := true })
    | some .quarantined => some (s, .returned { claim, state := .quarantined, replayed := true })
    -- in-flight or failed: resume
    | _ => some (s, .working claim 1)
  | .replaying claim, .next _ =>
    let outcome := committedOutcome s.runs claim.idempotencyKey
    if claim.jobId ≠ m.jobId then some (s, .observing claim outcome)
    else some (s, .returned (replayedRecord claim outcome))
  | .observing claim outcome, .next _ =>
    match append s.ledger (observation m claim outcome) with
    | (db, .error e) => some ({ s with ledger := db }, .raised (.append e))
    | (db, .ok _) => some ({ s with ledger := db }, .returned (replayedRecord claim outcome))
  | .working claim attempt, .work (.ok outcome) => some (s, .completing claim attempt outcome)
  | .working claim _, .work (.malformed reason locator) => some (s, .sinking claim reason (locatorOr locator m))
  | .working claim attempt, .work (.error text) =>
    if attempt < max then some (s, .working claim (attempt + 1)) else some (s, .failing claim attempt text)
  | .completing claim attempt outcome, .next _ =>
    match complete s m claim.idempotencyKey outcome with
    | (s, .error e) => some (s, .raised (.append e))
    | (s, .ok result) =>
      some (s, .returned
        { claim, outcome := some outcome, state := .complete, attempts := attempt, completionSeq := some result.seq })
  | .failing claim attempt error, .next _ =>
    some ({ s with runs := markRun s.runs claim.idempotencyKey .failed },
      .returned { claim, state := .failed, attempts := attempt, error := some error })
  | .sinking claim reason locator, .next _ =>
    some ({ s with quarantine := s.quarantine ++ [(locator, reason, m.evidenceRefs)] }, .quarantining claim reason locator)
  | .quarantining claim reason locator, .next _ =>
    some ({ s with runs := markRun s.runs claim.idempotencyKey .quarantined },
      .raised (.quarantined m.stageName reason locator))
  | p, .crash => if p.isOver then none else some (s, .crashed)
  | _, _ => none

/-- The claim a call works under. -/
def claim? : Phase → Option StageRunClaim
  | .lost c | .replaying c | .observing c _ | .working c _ | .completing c _ _ | .failing c _ _ | .sinking c _ _
  | .quarantining c _ _ => some c
  | .returned r => some r.claim
  | _ => none

/-- The work function is running. -/
def isWorking : Phase → Bool
  | .working .. => true
  | _ => false

/-- The work function has been invoked and the call has not ended. -/
def isBusy : Phase → Bool
  | .working .. | .completing .. | .failing .. | .sinking .. | .quarantining .. => true
  | _ => false

/-- The call has committed the completion of its own work. -/
def hasCompleted : Phase → Bool
  | .returned r => r.state = .complete && !r.replayed
  | _ => false

end Phase

/-! ## What a step does -/

/-- A step of one call, by what it does to the tables. -/
inductive Effect (max : Nat) (m : StageManifest) (s : RunStore) : Phase → Cue → RunStore → Phase → Prop
  | claim {now : Nat} (free : runOf s.runs m.idempotencyKey = none) :
      Effect max m s .start (.next now) { s with runs := s.runs ++ [.of m.idempotencyKey m now] }
        (.working { won := true, idempotencyKey := m.idempotencyKey, stageName := m.stageName, jobId := m.jobId } 1)
  | lose {now : Nat} {row : StageRun} (held : runOf s.runs m.idempotencyKey = some row) :
      Effect max m s .start (.next now) s
        (.lost { won := false, idempotencyKey := m.idempotencyKey, stageName := row.stageName, jobId := row.jobId })
  | replay {c : StageRunClaim} {now : Nat} (status : existingRun s.runs c.idempotencyKey = some .complete) :
      Effect max m s (.lost c) (.next now) s (.replaying c)
  | skip {c : StageRunClaim} {now : Nat} {status : StageStatus} (ended : status = .cancelled ∨ status = .quarantined)
      (read : existingRun s.runs c.idempotencyKey = some status) :
      Effect max m s (.lost c) (.next now) s (.returned { claim := c, state := status, replayed := true })
  | resume {c : StageRunClaim} {now : Nat}
      (status : ∀ st ∈ [StageStatus.complete, .cancelled, .quarantined], existingRun s.runs c.idempotencyKey ≠ some st) :
      Effect max m s (.lost c) (.next now) s (.working c 1)
  | read {c : StageRunClaim} {now : Nat} (job : c.jobId ≠ m.jobId) :
      Effect max m s (.replaying c) (.next now) s (.observing c (committedOutcome s.runs c.idempotencyKey))
  | replayed {c : StageRunClaim} {now : Nat} (job : c.jobId = m.jobId) :
      Effect max m s (.replaying c) (.next now) s (.returned (replayedRecord c (committedOutcome s.runs c.idempotencyKey)))
  | observe {c : StageRunClaim} {o : StageOutcome} {now : Nat} {p : Phase}
      (ends : p = .returned (replayedRecord c o) ∨ ∃ e, p = .raised (.append e)) :
      Effect max m s (.observing c o) (.next now) { s with ledger := (append s.ledger (observation m c o)).1 } p
  | worked {c : StageRunClaim} {n : Nat} {o : StageOutcome} :
      Effect max m s (.working c n) (.work (.ok o)) s (.completing c n o)
  | malformed {c : StageRunClaim} {n : Nat} {reason locator : String} :
      Effect max m s (.working c n) (.work (.malformed reason locator)) s (.sinking c reason (locatorOr locator m))
  | retry {c : StageRunClaim} {n : Nat} {text : String} (left : n < max) :
      Effect max m s (.working c n) (.work (.error text)) s (.working c (n + 1))
  | exhausted {c : StageRunClaim} {n : Nat} {text : String} (done : max ≤ n) :
      Effect max m s (.working c n) (.work (.error text)) s (.failing c n text)
  | complete {c : StageRunClaim} {n : Nat} {o : StageOutcome} {now : Nat} {result : CommitResult}
      (committed : (append s.ledger (completion m c.idempotencyKey o)).2 = .ok result) :
      Effect max m s (.completing c n o) (.next now)
        { s with
          ledger := (append s.ledger (completion m c.idempotencyKey o)).1
          runs := completeRun s.runs c.idempotencyKey o }
        (.returned { claim := c, outcome := some o, state := .complete, attempts := n, completionSeq := some result.seq })
  | refused {c : StageRunClaim} {n : Nat} {o : StageOutcome} {now : Nat} {e : AppendError}
      (error : (append s.ledger (completion m c.idempotencyKey o)).2 = .error e) :
      Effect max m s (.completing c n o) (.next now)
        { s with ledger := (append s.ledger (completion m c.idempotencyKey o)).1 } (.raised (.append e))
  | fail {c : StageRunClaim} {n : Nat} {text : String} {now : Nat} :
      Effect max m s (.failing c n text) (.next now) { s with runs := markRun s.runs c.idempotencyKey .failed }
        (.returned { claim := c, state := .failed, attempts := n, error := some text })
  | sink {c : StageRunClaim} {reason locator : String} {now : Nat} :
      Effect max m s (.sinking c reason locator) (.next now)
        { s with quarantine := s.quarantine ++ [(locator, reason, m.evidenceRefs)] } (.quarantining c reason locator)
  | quarantine {c : StageRunClaim} {reason locator : String} {now : Nat} :
      Effect max m s (.quarantining c reason locator) (.next now)
        { s with runs := markRun s.runs c.idempotencyKey .quarantined } (.raised (.quarantined m.stageName reason locator))
  | crash {p : Phase} (live : p.isOver = false) : Effect max m s p .crash s .crashed

theorem step_effect {max : Nat} {m : StageManifest} {s s' : RunStore} {p p' : Phase} {cue : Cue}
    (h : p.step max m s cue = some (s', p')) : Effect max m s p cue s' p' := by
  cases cue with
  | crash =>
    have hc : (if p.isOver then none else some (s, Phase.crashed)) = some (s', p') := by
      cases p <;> exact h
    split at hc
    · cases hc
    · rename_i ho
      cases hc
      exact .crash (Bool.eq_false_iff.2 ho)
  | work result =>
    cases p with
    | working c n =>
      cases result with
      | ok o => cases h; exact .worked
      | malformed reason locator => cases h; exact .malformed
      | error text =>
        simp only [Phase.step] at h
        split at h
        · cases h; exact .retry ‹_›
        · cases h; exact .exhausted (by omega)
    | _ => cases h
  | next now =>
    cases p with
    | start =>
      cases hr : runOf s.runs m.idempotencyKey with
      | none =>
        simp only [Phase.step, claim_free hr] at h
        cases h; exact .claim hr
      | some row =>
        simp only [Phase.step, claim_held hr] at h
        cases h; exact .lose hr
    | lost c =>
      simp only [Phase.step] at h
      split at h
      · cases h; exact .replay ‹_›
      · cases h; exact .skip (.inl rfl) ‹_›
      · cases h; exact .skip (.inr rfl) ‹_›
      · rename_i h1 h2 h3
        cases h
        exact .resume (by simpa using ⟨h1, h2, h3⟩)
    | replaying c =>
      simp only [Phase.step] at h
      split at h
      · cases h; exact .read ‹_›
      · rename_i hj
        cases h; exact .replayed (not_not.1 hj)
    | observing c o =>
      have hobs := fun p' hp => @Effect.observe max m s c o now p' hp
      simp only [Phase.step] at h
      split at h
      · rename_i db e heq
        cases h
        rw [heq] at hobs
        exact hobs _ (.inr ⟨e, rfl⟩)
      · rename_i db result heq
        cases h
        rw [heq] at hobs
        exact hobs _ (.inl rfl)
    | completing c n o =>
      simp only [Phase.step, Umd.Jobs.complete] at h
      cases hr : append s.ledger (completion m c.idempotencyKey o) with
      | mk db r =>
        rw [hr] at h
        cases r with
        | error e =>
          cases h
          have := @Effect.refused max m s c n o now e (by rw [hr])
          rwa [hr] at this
        | ok result =>
          cases h
          have := @Effect.complete max m s c n o now result (by rw [hr])
          rwa [hr] at this
    | failing c n text => cases h; exact .fail
    | sinking c reason locator => cases h; exact .sink
    | quarantining c reason locator => cases h; exact .quarantine
    | _ => cases h

theorem effect_live {max : Nat} {m : StageManifest} {s s' : RunStore} {p p' : Phase} {cue : Cue}
    (h : Effect max m s p cue s' p') : p.isOver = false := by
  cases h with
  | crash live => exact live
  | _ => rfl

theorem effect_rows {max : Nat} {m : StageManifest} {s s' : RunStore} {p p' : Phase} {cue : Cue}
    (h : Effect max m s p cue s' p') {k : Uuid} (hk : runOf s.runs k ≠ none) : runOf s'.runs k ≠ none := by
  cases h with
  | claim free =>
    rw [runOf_append]
    obtain ⟨r, hr⟩ := Option.ne_none_iff_exists'.1 hk
    rw [hr]
    exact nofun
  | complete | fail | quarantine => exact setRun_kept (fun _ => rfl) hk
  | _ => exact hk

/-- The claim of a call changes only when it is made, and is dropped by a crash or an exception. -/
theorem effect_claim {max : Nat} {m : StageManifest} {s s' : RunStore} {p p' : Phase} {cue : Cue}
    (h : Effect max m s p cue s' p') {c : StageRunClaim} (hc : p'.claim? = some c) :
    p.claim? = some c ∨ p = .start ∧ c.idempotencyKey = m.idempotencyKey ∧ runOf s'.runs m.idempotencyKey ≠ none ∧
      (c.won = true → runOf s.runs m.idempotencyKey = none) := by
  cases h with
  | claim free =>
    cases hc
    refine .inr ⟨rfl, rfl, ?_, fun _ => free⟩
    rw [runOf_append, free]
    simp [StageRun.of]
  | lose held =>
    cases hc
    exact .inr ⟨rfl, rfl, by rw [held]; exact Option.some_ne_none _, fun hwon => by cases hwon⟩
  | observe ends =>
    rcases ends with rfl | ⟨e, rfl⟩
    · exact .inl hc
    · cases hc
  | refused | quarantine | crash => cases hc
  | _ => exact .inl hc

/-- A step leaves the rows of every key but its own. -/
theorem effect_other {max : Nat} {m : StageManifest} {s s' : RunStore} {p p' : Phase} {cue : Cue}
    (h : Effect max m s p cue s' p') (hc : ∀ c, p.claim? = some c → c.idempotencyKey = m.idempotencyKey) {k : Uuid}
    (hk : k ≠ m.idempotencyKey) : runOf s'.runs k = runOf s.runs k := by
  cases h with
  | claim free => rw [runOf_append, StageRun.of, if_neg (Ne.symm hk), Option.or_none]
  | complete => rw [runOf_completeRun, if_neg (by rw [hc _ rfl]; exact hk)]
  | fail | quarantine => rw [runOf_markRun, if_neg (by rw [hc _ rfl]; exact hk)]
  | _ => rfl

/-- A step leaves every row as it was claimed, and may add the one it claims. -/
theorem effect_claimed {max : Nat} {m : StageManifest} {s s' : RunStore} {p p' : Phase} {cue : Cue}
    (h : Effect max m s p cue s' p') : ∃ new : List StageRun,
      s'.runs.map StageRun.claimed = s.runs.map StageRun.claimed ++ new ∧
        ∀ r ∈ new, runOf s.runs m.idempotencyKey = none ∧ ∃ now, r = .of m.idempotencyKey m now := by
  cases h with
  | @claim now free =>
    refine ⟨[.of m.idempotencyKey m now], by rw [List.map_append]; rfl, fun r hr => ⟨free, now, ?_⟩⟩
    exact List.mem_singleton.1 hr
  | complete | fail | quarantine =>
    refine ⟨[], ?_, by simp⟩
    rw [List.append_nil]
    exact setRun_claimed fun _ => rfl
  | _ => exact ⟨[], by simp, by simp⟩

/-- A row stays under its claim. -/
theorem effect_kept {max : Nat} {m : StageManifest} {s s' : RunStore} {p p' : Phase} {cue : Cue}
    (h : Effect max m s p cue s' p') {r : StageRun} (hr : r ∈ s.runs) : ∃ r' ∈ s'.runs, r'.claimed = r.claimed := by
  obtain ⟨new, hnew, -⟩ := effect_claimed h
  have hmem : r.claimed ∈ s'.runs.map StageRun.claimed := by
    rw [hnew]
    exact List.mem_append_left _ (List.mem_map_of_mem hr)
  exact List.mem_map.1 hmem

/-! ## Interleaved calls -/

/-- The tables and every call. -/
structure Calls where
  store : RunStore
  phase : Nat → Phase := fun _ => .start

/-- A step of call `i`. -/
def Calls.step (max : Nat) (manifests : Nat → StageManifest) (s : Calls) (a : Nat × Cue) : Option Calls :=
  ((s.phase a.1).step max (manifests a.1) s.store a.2).map fun r =>
    { store := r.1, phase := Umd.Reducer.upd s.phase a.1 r.2 }

theorem calls_step {max : Nat} {manifests : Nat → StageManifest} {s s' : Calls} {i : Nat} {cue : Cue}
    (h : s.step max manifests (i, cue) = some s') :
    ∃ p', Effect max (manifests i) s.store (s.phase i) cue s'.store p' ∧ s'.phase = Umd.Reducer.upd s.phase i p' := by
  obtain ⟨⟨store, p'⟩, hs, rfl⟩ := Option.map_eq_some_iff.1 h
  exact ⟨p', step_effect hs, rfl⟩

end Umd.Jobs
