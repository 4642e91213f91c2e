import Umd.Jobs.Execution
/-!
# One caller works

Calls of `run` over one key: with losers that only ever read the row as ended,
the winner of the claim is the only one to run work, and nobody runs work once
the row is complete. A loser that reads a row in flight takes it for crashed and
resumes it.
-/

namespace Umd.Jobs

open Umd.Lib Umd.Ledger Umd.Reducer

variable {max : Nat} {manifests : Nat → StageManifest}

/-- Whenever a caller that lost its claim reads the status, the row is complete, cancelled or quarantined. -/
def LosersReadEnded (s : Calls) (a : Nat × Cue) : Prop :=
  match s.phase a.1 with
  | .lost c => existingRun s.store.runs c.idempotencyKey ∈
      [some StageStatus.complete, some .cancelled, some .quarantined]
  | _ => True

/-- What the module contract promises of the callers of one key. -/
structure WorkedOnce (manifests : Nat → StageManifest) (s : Calls) : Prop where
  /-- At most one caller is inside the work function. -/
  alone : ∀ i j, (manifests i).idempotencyKey = (manifests j).idempotencyKey →
    (s.phase i).isWorking = true → (s.phase j).isWorking = true → i = j
  /-- Nobody is once a caller has completed, or the row is complete. -/
  final : ∀ i j, (manifests i).idempotencyKey = (manifests j).idempotencyKey → (s.phase i).isWorking = true →
    (s.phase j).hasCompleted = false ∧ existingRun s.store.runs (manifests i).idempotencyKey ≠ some .complete
  /-- A losing duplicate never is. -/
  winner : ∀ i, (s.phase i).isWorking = true → ∃ c, (s.phase i).claim? = some c ∧ c.won = true

/-- The call holds a claim it won. -/
def Phase.Won (p : Phase) : Prop := ∃ c, p.claim? = some c ∧ c.won = true

/-- The claims behind the phases. -/
structure Claims (manifests : Nat → StageManifest) (s : Calls) : Prop where
  key : ∀ i c, (s.phase i).claim? = some c → c.idempotencyKey = (manifests i).idempotencyKey
  row : ∀ i c, (s.phase i).claim? = some c → runOf s.store.runs (manifests i).idempotencyKey ≠ none
  unique : ∀ i j, (manifests i).idempotencyKey = (manifests j).idempotencyKey →
    (s.phase i).Won → (s.phase j).Won → i = j
  busy : ∀ i, (s.phase i).isBusy = true ∨ (s.phase i).hasCompleted = true → (s.phase i).Won
  openRow : ∀ i, (s.phase i).isBusy = true → existingRun s.store.runs (manifests i).idempotencyKey ≠ some .complete

/-! ## What a step does to the claims -/

/-- A row becomes complete only in the completion of a call under its key. -/
theorem effect_complete {m : StageManifest} {s s' : RunStore} {p p' : Phase} {cue : Cue}
    (h : Effect max m s p cue s' p') {k : Uuid} (hk : existingRun s'.runs k = some .complete) :
    existingRun s.runs k = some .complete ∨
      ∃ c, p.claim? = some c ∧ p.isBusy = true ∧ c.idempotencyKey = k ∧ p'.isBusy = false := by
  cases h with
  | claim free =>
    left
    rw [existingRun_append] at hk
    cases hr : existingRun s.runs k with
    | some status => rw [hr, Option.some_or] at hk; exact hk
    | none =>
      rw [hr, Option.none_or] at hk
      split at hk <;> cases hk
  | @complete c n o now result committed =>
    by_cases hkc : k = c.idempotencyKey
    · exact .inr ⟨c, rfl, rfl, hkc.symm, rfl⟩
    · rw [existingRun_completeRun_ne hkc] at hk
      exact .inl hk
  | fail | quarantine =>
    left
    rw [existingRun_markRun] at hk
    split at hk
    · obtain ⟨_, _, h⟩ := Option.map_eq_some_iff.1 hk; cases h
    · exact hk
  | _ => exact .inl hk

/-- Work is entered by winning a claim or by resuming a row that has not ended. -/
theorem effect_busy {m : StageManifest} {s s' : RunStore} {p p' : Phase} {cue : Cue}
    (h : Effect max m s p cue s' p') (hb : p'.isBusy = true ∨ p'.hasCompleted = true) :
    (p.isBusy = true ∧ p'.claim? = p.claim?) ∨ p = .start ∧ p'.Won ∧ existingRun s'.runs m.idempotencyKey = some .claimed ∨
      ∃ c, p = .lost c ∧ ∀ st ∈ [StageStatus.complete, .cancelled, .quarantined],
        existingRun s.runs c.idempotencyKey ≠ some st := by
  cases h with
  | claim free =>
    refine .inr (.inl ⟨rfl, ⟨_, rfl, rfl⟩, ?_⟩)
    rw [existingRun, runOf_append, free]
    simp [StageRun.of]
  | resume status => exact .inr (.inr ⟨_, rfl, status⟩)
  | worked | malformed | retry | exhausted | complete | fail | sink => exact .inl ⟨rfl, rfl⟩
  | skip ended =>
    rcases ended with rfl | rfl <;> simp [Phase.isBusy, Phase.hasCompleted] at hb
  | observe ends =>
    rcases ends with rfl | ⟨e, rfl⟩ <;> simp [Phase.isBusy, Phase.hasCompleted, replayedRecord] at hb
  | _ => simp [Phase.isBusy, Phase.hasCompleted, replayedRecord] at hb

/-! ## The invariant -/

theorem Claims.step {s s' : Calls} {a : Nat × Cue} (hi : Claims manifests s) (hok : LosersReadEnded s a)
    (h : s.step max manifests a = some s') : Claims manifests s' := by
  obtain ⟨i, cue⟩ := a
  obtain ⟨p', he, hphase⟩ := calls_step h
  have hself : s'.phase i = p' := by rw [hphase, upd_self]
  have hother : ∀ j, j ≠ i → s'.phase j = s.phase j := fun j hj => by rw [hphase, upd_ne _ _ hj]
  -- a win is an old one, or it found the key free
  have hwon : p'.Won → (s.phase i).Won ∨ runOf s.store.runs (manifests i).idempotencyKey = none := by
    rintro ⟨c, hc, hw⟩
    rcases effect_claim he hc with hc | ⟨-, -, -, hfree⟩
    · exact .inl ⟨c, hc, hw⟩
    · exact .inr (hfree hw)
  have hbusy : p'.isBusy = true ∨ p'.hasCompleted = true →
      ((s.phase i).isBusy = true ∧ p'.claim? = (s.phase i).claim?) ∨
        p'.Won ∧ existingRun s'.store.runs (manifests i).idempotencyKey = some .claimed := by
    intro hb
    rcases effect_busy he hb with hb | ⟨-, hw⟩ | ⟨c, hc, hst⟩
    · exact .inl hb
    · exact .inr hw
    · rw [LosersReadEnded, hc] at hok
      simp only [List.mem_cons, List.not_mem_nil, or_false] at hok hst
      rcases hok with h' | h' | h'
      · exact absurd h' (hst _ (.inl rfl))
      · exact absurd h' (hst _ (.inr (.inl rfl)))
      · exact absurd h' (hst _ (.inr (.inr rfl)))
  have hunique : ∀ j, j ≠ i → (manifests i).idempotencyKey = (manifests j).idempotencyKey → p'.Won →
      ¬ (s.phase j).Won := by
    intro j hj hk hw ⟨c, hc, hcw⟩
    rcases hwon hw with hw | hfree
    · exact hj (hi.unique i j hk hw ⟨c, hc, hcw⟩).symm
    · exact hi.row j c hc (hk ▸ hfree)
  constructor
  case key =>
    intro j c hc
    by_cases hj : j = i
    · subst hj
      rw [hself] at hc
      rcases effect_claim he hc with hc | ⟨-, hk, -⟩
      · exact hi.key j c hc
      · exact hk
    · rw [hother j hj] at hc; exact hi.key j c hc
  case row =>
    intro j c hc
    by_cases hj : j = i
    · subst hj
      rw [hself] at hc
      rcases effect_claim he hc with hc | ⟨-, -, hrow, -⟩
      · exact effect_rows he (hi.row j c hc)
      · exact hrow
    · rw [hother j hj] at hc; exact effect_rows he (hi.row j c hc)
  case unique =>
    intro j k hk hwj hwk
    by_cases hj : j = i
    · by_cases hki : k = i
      · exact hj.trans hki.symm
      · subst hj
        rw [hself] at hwj; rw [hother k hki] at hwk
        exact absurd hwk (hunique k hki hk hwj)
    · rw [hother j hj] at hwj
      by_cases hki : k = i
      · subst hki
        rw [hself] at hwk
        exact absurd hwj (hunique j hj hk.symm hwk)
      · rw [hother k hki] at hwk
        exact hi.unique j k hk hwj hwk
  case busy =>
    intro j hb
    by_cases hj : j = i
    · subst hj
      rw [hself] at hb ⊢
      rcases hbusy hb with ⟨hb, hc⟩ | ⟨hw, -⟩
      · obtain ⟨c, hc', hw⟩ := hi.busy j (.inl hb)
        exact ⟨c, hc.trans hc', hw⟩
      · exact hw
    · rw [hother j hj] at hb ⊢; exact hi.busy j hb
  case openRow =>
    intro j hb hcomplete
    by_cases hj : j = i
    · subst hj
      rw [hself] at hb
      rcases effect_complete he hcomplete with hold | ⟨c, -, -, -, hover⟩
      · rcases hbusy (.inl hb) with ⟨hb, -⟩ | ⟨-, hclaimed⟩
        · exact hi.openRow j hb hold
        · rw [hclaimed] at hcomplete; cases hcomplete
      · rw [hover] at hb; cases hb
    · rw [hother j hj] at hb
      rcases effect_complete he hcomplete with hold | ⟨c, hc, hbi, hck, -⟩
      · exact hi.openRow j hb hold
      · have hkeys := (hi.key i c hc).symm.trans hck
        exact hj (hi.unique i j hkeys (hi.busy i (.inl hbi)) (hi.busy j (.inl hb))).symm

theorem isBusy_of_isWorking {p : Phase} (h : p.isWorking = true) : p.isBusy = true := by
  cases p with
  | working => rfl
  | _ => cases h

/-- One stage of one job. -/
def segmentation : StageManifest := manifestFor "job" (some "source") "" .basicSegmentation [] none

theorem step_claim {s : Calls} {i now : Nat} (hp : s.phase i = .start)
    (hfree : runOf s.store.runs (manifests i).idempotencyKey = none) :
    s.step max manifests (i, .next now) = some {
      store := { s.store with runs := s.store.runs ++ [.of (manifests i).idempotencyKey (manifests i) now] }
      phase := upd s.phase i (.working { won := true, idempotencyKey := (manifests i).idempotencyKey
                                         stageName := (manifests i).stageName, jobId := (manifests i).jobId } 1) } := by
  simp only [Calls.step, hp, Phase.step, claim_free hfree, if_true, Option.map_some]

theorem step_lose {s : Calls} {i now : Nat} {row : StageRun} (hp : s.phase i = .start)
    (hrow : runOf s.store.runs (manifests i).idempotencyKey = some row) :
    s.step max manifests (i, .next now) = some { s with
      phase := upd s.phase i (.lost { won := false, idempotencyKey := (manifests i).idempotencyKey
                                      stageName := row.stageName, jobId := row.jobId }) } := by
  simp only [Calls.step, hp, Phase.step, claim_held hrow, Bool.false_eq_true, if_false, Option.map_some]

theorem step_resume {s : Calls} {i now : Nat} {c : StageRunClaim} (hp : s.phase i = .lost c)
    (hrow : existingRun s.store.runs c.idempotencyKey = some .claimed) :
    s.step max manifests (i, .next now) = some { s with phase := upd s.phase i (.working c 1) } := by
  simp only [Calls.step, hp, Phase.step, hrow, Option.map_some]

end Umd.Jobs
