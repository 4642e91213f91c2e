import Umd.Jobs.Execution
/-!
# A call of `run` alone

`execute` drives the machine of the executor to its end while nobody else
touches the tables; `execute_open`, `execute_complete` and `execute_skipped` say
what that comes to for each state of the row.
-/

namespace Umd.Jobs

open Umd.Lib Umd.Events Umd.Ledger

/-- A work function, by what its n-th invocation in a call of `run` ends with. -/
abbrev Work := StageManifest → Nat → WorkResult

/-! ## A call of `run` alone -/

/-- What a call does next when nothing interrupts it. -/
def Phase.cue (work : Nat → WorkResult) (now : Nat) : Phase → Cue
  | .working _ attempt => .work (work attempt)
  | _ => .next now

section Drive

variable (max : Nat) (m : StageManifest) (work : Nat → WorkResult) (now : Nat)

/-- At most `n` steps of a call alone. -/
def drive : Nat → RunStore × Phase → RunStore × Phase
  | 0, x => x
  | n + 1, x =>
    match x.2.step max m x.1 (x.2.cue work now) with
    | none => x
    | some y => drive n y

/-- `DurableStageExecutor.run`; the last steps of the bound are never reached. -/
def execute (s : RunStore) : RunStore × Phase := drive max m work now (max + 6) (s, .start)

/-- The work function is invoked in the call. -/
def Invoked (s : RunStore) : Prop := ∃ n, (drive max m work now n (s, .start)).2.isWorking = true

end Drive

variable {max : Nat} {m : StageManifest} {work : Nat → WorkResult} {now : Nat}

theorem drive_step {n : Nat} {x y : RunStore × Phase} (h : x.2.step max m x.1 (x.2.cue work now) = some y) :
    drive max m work now (n + 1) x = drive max m work now n y := by
  rw [drive, h]

theorem drive_over {n : Nat} {s : RunStore} {p : Phase} (h : p.isOver = true) :
    drive max m work now n (s, p) = (s, p) := by
  cases n with
  | zero => rfl
  | succ n => cases p <;> first | rfl | cases h

theorem drive_add {a b : Nat} {x : RunStore × Phase} :
    drive max m work now (a + b) x = drive max m work now b (drive max m work now a x) := by
  induction a generalizing x with
  | zero => rw [Nat.zero_add, drive]
  | succ a ih =>
    rw [Nat.succ_add, drive, drive]
    cases hs : x.2.step max m x.1 (x.2.cue work now) with
    | some y => exact ih
    | none =>
      -- a machine that has stopped stays where it is
      cases b with
      | zero => rfl
      | succ b => simp only [drive, hs]

/-- What every step keeps holds of every phase a call goes through. -/
theorem drive_inv (P : RunStore × Phase → Prop) {n : Nat} {x : RunStore × Phase} (hx : P x)
    (h : ∀ x y, P x → x.2.step max m x.1 (x.2.cue work now) = some y → P y) : P (drive max m work now n x) := by
  induction n generalizing x with
  | zero => exact hx
  | succ n ih =>
    rw [drive]
    split
    · exact hx
    · rename_i y hy
      exact ih (h x y hx hy)

/-! ## The attempts -/

/-- The attempt that ends the loop, from the `n`-th with `left` more allowed, and its result. -/
def settle (work : Nat → WorkResult) : Nat → Nat → Nat × WorkResult
  | 0, n => (n, work n)
  | left + 1, n =>
    match work n with
    | .error _ => settle work left (n + 1)
    | result => (n, result)

/-- Where the last attempt leads. -/
def settled (c : StageRunClaim) (m : StageManifest) : Nat × WorkResult → Phase
  | (n, .ok outcome) => .completing c n outcome
  | (_, .malformed reason locator) => .sinking c reason (locatorOr locator m)
  | (n, .error text) => .failing c n text

theorem drive_working {s : RunStore} {c : StageRunClaim} {left n : Nat} (h : left = max - n) :
    ∃ j ≤ left + 1, drive max m work now j (s, .working c n) = (s, settled c m (settle work left n)) := by
  induction left generalizing n with
  | zero =>
    refine ⟨1, by omega, ?_⟩
    have hn : ¬ n < max := by omega
    cases hw : work n <;> simp only [drive, Phase.cue, Phase.step, settle, settled, hw, hn, if_false]
  | succ left ih =>
    have hn : n < max := by omega
    cases hw : work n with
    | ok outcome => exact ⟨1, by omega, by simp only [drive, Phase.cue, Phase.step, settle, settled, hw]⟩
    | malformed reason locator => exact ⟨1, by omega, by simp only [drive, Phase.cue, Phase.step, settle, settled, hw]⟩
    | error text =>
      obtain ⟨j, hj, hdrive⟩ := @ih (n + 1) (by omega)
      refine ⟨j + 1, by omega, ?_⟩
      rw [drive_step (y := (s, .working c (n + 1))) (by simp only [Phase.cue, Phase.step, hw, hn, if_true]), hdrive]
      simp only [settle, hw]

/-- The attempts fail when each of them does. -/
theorem settle_error_iff {left n : Nat} :
    (∃ text, (settle work left n).2 = .error text) ↔ ∀ i, n ≤ i → i ≤ n + left → ∃ text, work i = .error text := by
  induction left generalizing n with
  | zero =>
    constructor
    · intro h i h1 h2
      obtain rfl : i = n := by omega
      exact h
    · intro h
      exact h n (Nat.le_refl n) (Nat.le_refl n)
  | succ left ih =>
    constructor
    · intro h i h1 h2
      cases hw : work n with
      | error text =>
        simp only [settle, hw] at h
        by_cases hi : i = n
        · exact ⟨text, hi ▸ hw⟩
        · exact ih.1 h i (by omega) (by omega)
      | _ => simp [settle, hw] at h
    · intro h
      obtain ⟨text, hw⟩ := h n (Nat.le_refl n) (by omega)
      simp only [settle, hw]
      exact ih.2 fun i h1 h2 => h i (by omega) (by omega)

/-! ## What a call alone comes to -/

/-- The row of a key ends every later call that claims it. -/
def RowEnded (runs : List StageRun) (key : Uuid) : Prop :=
  existingRun runs key ∈ [some StageStatus.complete, some .cancelled, some .quarantined]

/-- The two transactions that may be left after the attempts. -/
theorem settled_over {s : RunStore} {c : StageRunClaim} {r : Nat × WorkResult} :
    (drive max m work now 2 (s, settled c m r)).2.isOver = true := by
  obtain ⟨n, r⟩ := r
  cases r with
  | ok outcome =>
    simp only [drive, settled, Phase.cue, Phase.step]
    cases hc : complete s m c.idempotencyKey outcome with
    | mk s' result => cases result <;> simp [Phase.isOver]
  | malformed reason locator => simp only [drive, settled, Phase.cue, Phase.step, Phase.isOver]
  | error text => simp only [drive, settled, Phase.cue, Phase.step, Phase.isOver]

theorem lost_resumes {s : RunStore} {c : StageRunClaim} (h : ¬ RowEnded s.runs c.idempotencyKey) :
    Phase.step max m s (.lost c) (.next now) = some (s, .working c 1) := by
  simp only [RowEnded, List.mem_cons, List.not_mem_nil, or_false, not_or] at h
  simp only [Phase.step]
  split
  · rename_i hs; exact absurd hs h.1
  · rename_i hs; exact absurd hs h.2.1
  · rename_i hs; exact absurd hs h.2.2
  · rfl

theorem drive_held {n : Nat} {s : RunStore} {row : StageRun} (hr : runOf s.runs m.idempotencyKey = some row) :
    drive max m work now (n + 1) (s, .start) = drive max m work now n (s, .lost (claim s.runs m now).2) := by
  apply drive_step
  simp only [Phase.cue, Phase.step, claim_held hr, Bool.false_eq_true, if_false]

/-- How a call gets from the claim to the attempts. -/
theorem drive_start {s : RunStore} (h : ¬ RowEnded s.runs m.idempotencyKey) :
    ∃ j ≤ 2, drive max m work now j (s, .start) =
      ({ s with runs := (claim s.runs m now).1 }, .working (claim s.runs m now).2 1) := by
  cases hr : runOf s.runs m.idempotencyKey with
  | none => exact ⟨1, by omega, by simp only [drive, Phase.cue, Phase.step, claim_free hr, if_true]⟩
  | some row =>
    refine ⟨2, Nat.le_refl 2, ?_⟩
    rw [drive_held hr, claim_held hr]
    exact drive_step (n := 0) (lost_resumes h)

/-- A key whose row has not ended is worked on. -/
theorem execute_open {s : RunStore} (h : ¬ RowEnded s.runs m.idempotencyKey) :
    execute max m work now s = drive max m work now 2
      ({ s with runs := (claim s.runs m now).1 }, settled (claim s.runs m now).2 m (settle work (max - 1) 1)) := by
  obtain ⟨j, hj, hstart⟩ := @drive_start max m work now s h
  obtain ⟨k, hk, hwork⟩ := @drive_working max m work now { s with runs := (claim s.runs m now).1 }
    (claim s.runs m now).2 (max - 1) 1 rfl
  obtain ⟨rest, hrest⟩ : ∃ rest, max + 6 = j + (k + (2 + rest)) := ⟨max + 6 - j - k - 2, by omega⟩
  rw [execute, hrest, drive_add, hstart, drive_add, hwork, drive_add]
  exact drive_over settled_over

/-- A row that was cancelled or quarantined is answered with its status. -/
theorem execute_skipped {s : RunStore} {status : StageStatus} (hs : status = .cancelled ∨ status = .quarantined)
    (h : existingRun s.runs m.idempotencyKey = some status) :
    execute max m work now s =
      (s, .returned { claim := (claim s.runs m now).2, state := status, replayed := true }) := by
  obtain ⟨row, hr, -⟩ := Option.map_eq_some_iff.1 h
  have hstep : Phase.step max m s (.lost (claim s.runs m now).2) (.next now) =
      some (s, .returned { claim := (claim s.runs m now).2, state := status, replayed := true }) := by
    rw [claim_held hr]
    rcases hs with rfl | rfl <;> simp only [Phase.step, h]
  rw [execute, drive_held hr, drive_step hstep, drive_over rfl]

/-- The transaction that may be left after the read of a complete row. -/
theorem replaying_over {s : RunStore} {c : StageRunClaim} :
    (drive max m work now 2 (s, .replaying c)).2.isOver = true := by
  simp only [drive, Phase.cue, Phase.step]
  split
  · rename_i hx; split at hx <;> cases hx
  · rename_i x hx
    split at hx
    · cases hx
      dsimp only
      cases append s.ledger (observation m c (committedOutcome s.runs c.idempotencyKey)) with
      | mk db result => cases result <;> rfl
    · cases hx; rfl

/-- A complete row is replayed. -/
theorem execute_complete {s : RunStore} (h : existingRun s.runs m.idempotencyKey = some .complete) :
    execute max m work now s = drive max m work now 2 (s, .replaying (claim s.runs m now).2) := by
  obtain ⟨row, hr, -⟩ := Option.map_eq_some_iff.1 h
  have hstep : Phase.step max m s (.lost (claim s.runs m now).2) (.next now) =
      some (s, .replaying (claim s.runs m now).2) := by
    rw [claim_held hr]
    simp only [Phase.step, h]
  obtain ⟨rest, hrest⟩ : ∃ rest, max + 4 = 2 + rest := ⟨max + 2, by omega⟩
  rw [execute, drive_held hr, drive_step hstep, hrest, drive_add, drive_over replaying_over]

theorem drive_not_crashed {n : Nat} {s : RunStore} : (drive max m work now n (s, .start)).2 ≠ .crashed := by
  apply drive_inv (fun x => x.2 ≠ .crashed) (by exact nofun)
  rintro ⟨s₁, p₁⟩ ⟨s₂, p₂⟩ - hstep
  have hcue : p₁.cue work now ≠ .crash := by cases p₁ <;> exact nofun
  dsimp only at hstep ⊢
  generalize p₁.cue work now = cue at hstep hcue
  cases step_effect hstep with
  | crash => exact absurd rfl hcue
  | observe ends => rcases ends with rfl | ⟨e, rfl⟩ <;> exact nofun
  | _ => exact nofun

/-- **A call alone returns or raises.** -/
theorem execute_ends (max : Nat) (m : StageManifest) (work : Nat → WorkResult) (now : Nat) (s : RunStore) :
    (∃ r, (execute max m work now s).2 = .returned r) ∨ ∃ e, (execute max m work now s).2 = .raised e := by
  have hover : (execute max m work now s).2.isOver = true := by
    by_cases h : RowEnded s.runs m.idempotencyKey
    · simp only [RowEnded, List.mem_cons, List.not_mem_nil, or_false] at h
      rcases h with h | h | h
      · rw [execute_complete h]; exact replaying_over
      · rw [execute_skipped (.inl rfl) h]; rfl
      · rw [execute_skipped (.inr rfl) h]; rfl
    · rw [execute_open h]; exact settled_over
  have hlive : (execute max m work now s).2 ≠ .crashed := drive_not_crashed
  cases hp : (execute max m work now s).2 with
  | returned r => exact .inl ⟨r, rfl⟩
  | raised e => exact .inr ⟨e, rfl⟩
  | crashed => exact absurd hp hlive
  | _ => rw [hp] at hover; cases hover

theorem execute_over (max : Nat) (m : StageManifest) (work : Nat → WorkResult) (now : Nat) (s : RunStore) :
    (execute max m work now s).2.isOver = true := by
  rcases execute_ends max m work now s with ⟨r, hr⟩ | ⟨e, he⟩
  · rw [hr]; rfl
  · rw [he]; rfl

/-- A call alone leaves the rows of every key but its own, wherever it is cut off. -/
theorem drive_other {n : Nat} {s : RunStore} {k : Uuid} (hk : k ≠ m.idempotencyKey) :
    runOf (drive max m work now n (s, .start)).1.runs k = runOf s.runs k := by
  have h : runOf (drive max m work now n (s, .start)).1.runs k = runOf s.runs k ∧
      ∀ c, (drive max m work now n (s, .start)).2.claim? = some c → c.idempotencyKey = m.idempotencyKey := by
    refine drive_inv (fun x => runOf x.1.runs k = runOf s.runs k ∧ ∀ c, x.2.claim? = some c →
      c.idempotencyKey = m.idempotencyKey) ⟨rfl, by exact nofun⟩ ?_
    rintro ⟨s₁, p₁⟩ ⟨s₂, p₂⟩ ⟨hrow, hkey⟩ hstep
    have heffect := step_effect hstep
    refine ⟨(effect_other heffect hkey hk).trans hrow, fun c hc => ?_⟩
    rcases effect_claim heffect hc with hc | ⟨-, hkey', -⟩
    · exact hkey c hc
    · exact hkey'
  exact h.1

theorem execute_other {s : RunStore} {k : Uuid} (hk : k ≠ m.idempotencyKey) :
    runOf (execute max m work now s).1.runs k = runOf s.runs k := drive_other hk

/-- The phases a call on an ended row goes through. -/
def Phase.IsQuiet (key : Uuid) : Phase → Prop
  | .lost c => c.idempotencyKey = key
  | .start | .replaying _ | .observing .. | .returned _ | .raised _ | .crashed => True
  | _ => False

/-- A call on an ended row leaves the rows and never gets to work. -/
theorem drive_quiet {n : Nat} {s : RunStore} (h : RowEnded s.runs m.idempotencyKey) :
    (drive max m work now n (s, .start)).1.runs = s.runs ∧
      (drive max m work now n (s, .start)).2.IsQuiet m.idempotencyKey := by
  refine drive_inv (fun x => x.1.runs = s.runs ∧ x.2.IsQuiet m.idempotencyKey) ⟨rfl, by trivial⟩ ?_
  rintro ⟨s₁, p₁⟩ ⟨s₂, p₂⟩ ⟨hruns, hp⟩ hstep
  dsimp only at hruns hp hstep ⊢
  rw [← hruns] at h ⊢
  generalize p₁.cue work now = cue at hstep
  cases step_effect hstep with
  | claim free => simp [RowEnded, existingRun, free] at h
  | resume status =>
    rw [Phase.IsQuiet] at hp
    rw [hp] at status
    simp only [RowEnded, List.mem_cons, List.not_mem_nil, or_false] at h status
    rcases h with h | h | h
    · exact absurd h (status _ (.inl rfl))
    · exact absurd h (status _ (.inr (.inl rfl)))
    · exact absurd h (status _ (.inr (.inr rfl)))
  | lose => exact ⟨rfl, rfl⟩
  | replay | skip | read | replayed | crash => exact ⟨rfl, trivial⟩
  | observe ends => rcases ends with rfl | ⟨e, rfl⟩ <;> exact ⟨rfl, trivial⟩
  | _ => cases hp

theorem not_invoked {s : RunStore} (h : RowEnded s.runs m.idempotencyKey) : ¬ Invoked max m work now s := by
  rintro ⟨n, hn⟩
  have hquiet := (@drive_quiet max m work now n s h).2
  cases hp : (drive max m work now n (s, .start)).2 with
  | working => rw [hp] at hquiet; cases hquiet
  | _ => rw [hp] at hn; cases hn

/-- **The work of a call alone is invoked exactly where the row of its key has not ended.** -/
theorem invoked_iff {s : RunStore} : Invoked max m work now s ↔ ¬ RowEnded s.runs m.idempotencyKey := by
  constructor
  · exact fun h hended => not_invoked hended h
  · intro h
    obtain ⟨j, -, hstart⟩ := @drive_start max m work now s h
    exact ⟨j, by rw [hstart]; rfl⟩

/-! ## A call whose work ends at once -/

theorem not_ended_of_free {runs : List StageRun} {key : Uuid} (h : runOf runs key = none) : ¬ RowEnded runs key := by
  simp [RowEnded, existingRun, h]

theorem settle_ok {left n : Nat} {o : StageOutcome} (h : work n = .ok o) : settle work left n = (n, .ok o) := by
  cases left <;> simp only [settle, h]

/-- Work that succeeds at once is committed. -/
theorem execute_ok {s : RunStore} {o : StageOutcome} {source : String} (h : ¬ RowEnded s.runs m.idempotencyKey)
    (hwork : work 1 = .ok o) (hsource : m.sourceId = some source) :
    ∃ ledger record, execute max m work now s =
      ({ s with ledger := ledger, runs := completeRun (claim s.runs m now).1 m.idempotencyKey o }, .returned record) ∧
        record.state = .complete ∧ record.outcome = some o := by
  obtain ⟨ledger, result, happend⟩ := @stageCompleted_commits m o _ _ source hsource s.ledger (completionKey m.idempotencyKey)
  rw [execute_open h, settle_ok hwork]
  simp only [drive, settled, Phase.cue, Phase.step, complete, claim_key]
  rw [show append s.ledger (completion m m.idempotencyKey o) = (ledger, .ok result) from happend]
  exact ⟨_, _, rfl, rfl, rfl⟩

/-- Work that always fails is marked failed. -/
theorem execute_failing {s : RunStore} (h : ¬ RowEnded s.runs m.idempotencyKey) (hwork : ∀ i, ∃ text, work i = .error text) :
    ∃ record, execute max m work now s =
      ({ s with runs := markRun (claim s.runs m now).1 m.idempotencyKey .failed }, .returned record) := by
  rw [execute_open h, ← @claim_key s.runs m now]
  obtain ⟨text, herror⟩ := (@settle_error_iff work (max - 1) 1).2 fun i _ _ => hwork i
  cases hs : settle work (max - 1) 1 with
  | mk n result =>
    rw [hs] at herror
    cases herror
    exact ⟨_, rfl⟩

/-- A complete row of another job is observed and its refs are returned. -/
theorem execute_replay {s : RunStore} {row : StageRun} {source : String} (h : runOf s.runs m.idempotencyKey = some row)
    (hs : row.status = .complete) (hjob : row.jobId ≠ m.jobId) (hsource : m.sourceId = some source) :
    ∃ ledger record, execute max m work now s = ({ s with ledger := ledger }, .returned record) ∧ record.state = .complete ∧
      record.outcome = some { artifactRefs := row.artifactRefs, evidenceRefs := row.evidenceRefs } := by
  have hcomplete : existingRun s.runs m.idempotencyKey = some .complete := by rw [existingRun, h, Option.map_some, hs]
  let o : StageOutcome := { artifactRefs := row.artifactRefs, evidenceRefs := row.evidenceRefs }
  let c : StageRunClaim := { won := false, idempotencyKey := m.idempotencyKey, stageName := row.stageName, jobId := row.jobId }
  obtain ⟨ledger, result, happend⟩ := @stageCompleted_commits m o _ _ source hsource s.ledger
    (attributionKey m.idempotencyKey m.jobId)
  have hobserved : append s.ledger (observation m c o) = (ledger, .ok result) := happend
  refine ⟨ledger, replayedRecord c o, ?_, rfl, rfl⟩
  have houtcome : committedOutcome s.runs m.idempotencyKey = o := by rw [committedOutcome, h]
  rw [execute_complete hcomplete, claim_held h]
  simp only [drive, Phase.cue, Phase.step, if_pos hjob, houtcome]
  rw [hobserved]

end Umd.Jobs
