import Umd.Jobs.Executor
import Umd.Jobs.Hatchet
/-!
# Work that depends on the key

Calls of one key whose work ends alike settle on one result, however they
interleave: the row never holds anything else (`effect_fits`), and a complete
row stays complete. `OneRow` says that the rows of each stage of a lineage are
those of one key, which every step under that key keeps.
-/

namespace Umd.Jobs

open Umd.Lib Umd.Events Umd.Ledger

/-! ## One row for each stage -/

/-- The rows of a stage are the row of its key. -/
def OneRow (key : Stage → Uuid) (lineage : LineageId) (runs : List StageRun) : Prop :=
  ∀ stage, stageRows runs lineage stage = (runOf runs (key stage)).toList

section Rows

variable {key : Stage → Uuid} {lineage : LineageId} {runs : List StageRun}

theorem isOf_claimed {r r' : StageRun} (h : r.claimed = r'.claimed) : r.isOf lineage = r'.isOf lineage := by
  have hclaimed : ∀ r : StageRun, r.isOf lineage = r.claimed.isOf lineage := fun _ => rfl
  rw [hclaimed r, h, ← hclaimed]

theorem stageName_claimed {r r' : StageRun} (h : r.claimed = r'.claimed) : r.stageName = r'.stageName := by
  have := congrArg StageRun.stageName h
  exact this

theorem stageRows_append {r : StageRun} {stage : Stage} : stageRows (runs ++ [r]) lineage stage =
    stageRows runs lineage stage ++ if r.isOf lineage = true ∧ r.stageName = stage then [r] else [] := by
  rw [stageRows, List.filter_append, List.filter_singleton, stageRows]
  simp

theorem stageRows_setRun {k : Uuid} {f : StageRun → StageRun} {stage : Stage} (hf : ∀ r, (f r).claimed = r.claimed) :
    stageRows (setRun runs k f) lineage stage = setRun (stageRows runs lineage stage) k f := by
  rw [stageRows, setRun, List.filter_map, setRun, stageRows]
  congr 1
  apply List.filter_congr
  intro r _
  simp only [Function.comp_apply]
  split
  · rw [isOf_claimed (hf r), stageName_claimed (hf r)]
  · rfl

theorem OneRow.append (h : OneRow key lineage runs) (hkey : Function.Injective key) {r : StageRun}
    (hof : r.isOf lineage = true) (hr : r.idempotencyKey = key r.stageName) (free : runOf runs r.idempotencyKey = none) :
    OneRow key lineage (runs ++ [r]) := by
  intro stage
  rw [stageRows_append, runOf_append, h stage]
  by_cases hs : r.stageName = stage
  · rw [if_pos ⟨hof, hs⟩, ← hs, ← hr, free, if_pos rfl]
    rfl
  · have hne : r.idempotencyKey ≠ key stage := fun he => hs (hkey (hr ▸ he))
    rw [if_neg (by simp [hs]), if_neg hne, List.append_nil, Option.or_none]

theorem OneRow.setRun (h : OneRow key lineage runs) {k : Uuid} {f : StageRun → StageRun}
    (hf : ∀ r, (f r).claimed = r.claimed) : OneRow key lineage (setRun runs k f) := by
  have hfkey : ∀ r, (f r).idempotencyKey = r.idempotencyKey := fun r => by
    have := congrArg StageRun.idempotencyKey (hf r)
    exact this
  intro stage
  rw [stageRows_setRun hf, runOf_setRun hfkey, h stage]
  cases hr : runOf runs (key stage) with
  | none =>
    split <;> rfl
  | some r =>
    obtain ⟨-, hk⟩ := runOf_key hr
    by_cases hs : key stage = k
    · rw [if_pos hs]
      simp [Umd.Jobs.setRun, hk, hs]
    · rw [if_neg hs]
      simp [Umd.Jobs.setRun, hk, hs]

/-- A step of a call keeps it, if what the call claims is a row of the lineage under the key of its stage. -/
theorem OneRow.effect {max : Nat} {m : StageManifest} {s s' : RunStore} {p p' : Phase} {cue : Cue}
    (h : OneRow key lineage s.runs) (hkey : Function.Injective key) (hm : m.idempotencyKey = key m.stageName)
    (hof : ∀ now, (StageRun.of m.idempotencyKey m now).isOf lineage = true) (he : Effect max m s p cue s' p') :
    OneRow key lineage s'.runs := by
  cases he with
  | claim free => exact h.append hkey (hof _) hm free
  | complete | fail | quarantine => exact h.setRun fun _ => rfl
  | _ => exact h

end Rows

/-! ## What the calls of a key settle on -/

/-- A row holds nothing but what its calls settle on. -/
def Holds (result : WorkResult) (r : StageRun) : Prop :=
  match r.status, result with
  | .claimed, _ => True
  | .complete, .ok outcome => r.evidenceRefs = outcome.evidenceRefs
  | .failed, .error _ => True
  | .quarantined, .malformed .. => True
  | _, _ => False

theorem holds_complete {result : WorkResult} {r : StageRun} (h : Holds result r) (hs : r.status = .complete) :
    ∃ outcome, result = .ok outcome ∧ r.evidenceRefs = outcome.evidenceRefs := by
  unfold Holds at h
  rw [hs] at h
  cases result with
  | ok outcome => exact ⟨outcome, rfl, h⟩
  | _ => exact h.elim

/-- What holds of a phase of a call under `key` beside any number of others. -/
def Phase.Fits (max : Nat) (work : Nat → WorkResult) (runs : List StageRun) (key : Uuid) : Phase → Prop
  | .lost c => c.idempotencyKey = key ∧ runOf runs key ≠ none
  | .replaying c | .observing c _ => c.idempotencyKey = key ∧ existingRun runs key = some .complete
  | .working c n => c.idempotencyKey = key ∧ runOf runs key ≠ none ∧ settle work (max - n) n = settle work (max - 1) 1
  | .completing c _ o => c.idempotencyKey = key ∧ runOf runs key ≠ none ∧ (settle work (max - 1) 1).2 = .ok o
  | .failing c _ text => c.idempotencyKey = key ∧ runOf runs key ≠ none ∧ (settle work (max - 1) 1).2 = .error text
  | .sinking c .. | .quarantining c .. =>
    c.idempotencyKey = key ∧ runOf runs key ≠ none ∧ ∃ reason locator, (settle work (max - 1) 1).2 = .malformed reason locator
  | .returned r =>
    r.state = .complete ∧ existingRun runs key = some .complete ∨
      r.state ∈ [StageStatus.failed, .quarantined, .cancelled] ∧ runOf runs key ≠ none
  | _ => True

/-- What a step does to the row of the call's key. -/
structure RowKept (result : WorkResult) (key : Uuid) (runs runs' : List StageRun) : Prop where
  there : runOf runs key ≠ none → runOf runs' key ≠ none
  complete : existingRun runs key = some .complete → existingRun runs' key = some .complete
  holds : ∀ r, runOf runs' key = some r → Holds result r

section Settles

variable {max : Nat} {m : StageManifest} {work : Nat → WorkResult} {s s' : RunStore} {p p' : Phase} {cue : Cue}

/-- A row is marked with what the calls settle on. -/
theorem rowKept_set {result : WorkResult} {runs : List StageRun} {key : Uuid} {f : StageRun → StageRun}
    (hf : ∀ r, (f r).idempotencyKey = r.idempotencyKey) (hrow : ∀ r, runOf runs key = some r → Holds result r)
    (hset : ∀ r, Holds result (f r)) (hcomplete : ∀ r, Holds result r → r.status = .complete → (f r).status = .complete) :
    RowKept result key runs (setRun runs key f) := by
  constructor
  · exact setRun_kept hf
  · intro hc
    obtain ⟨r, hr, hs⟩ := Option.map_eq_some_iff.1 hc
    rw [existingRun, runOf_setRun hf, if_pos rfl, hr, Option.map_some, Option.map_some, hcomplete r (hrow r hr) hs]
  · intro r hr
    rw [runOf_setRun hf, if_pos rfl] at hr
    obtain ⟨r', -, rfl⟩ := Option.map_eq_some_iff.1 hr
    exact hset r'

/-- **A step of one of the calls keeps what all of them settle on.** -/
theorem effect_fits (h : Effect max m s p cue s' p') (hcue : ∀ result c n, cue = .work result → p = .working c n → work n = result)
    (hp : p.Fits max work s.runs m.idempotencyKey)
    (hrow : ∀ r, runOf s.runs m.idempotencyKey = some r → Holds (settle work (max - 1) 1).2 r) :
    p'.Fits max work s'.runs m.idempotencyKey ∧ RowKept (settle work (max - 1) 1).2 m.idempotencyKey s.runs s'.runs := by
  have hsame : RowKept (settle work (max - 1) 1).2 m.idempotencyKey s.runs s.runs := ⟨id, id, hrow⟩
  cases h with
  | @claim now free =>
    have hnew : runOf (s.runs ++ [.of m.idempotencyKey m now]) m.idempotencyKey = some (.of m.idempotencyKey m now) := by
      rw [runOf_append, free, StageRun.of, if_pos rfl, Option.none_or]
    refine ⟨⟨rfl, by rw [hnew]; exact Option.some_ne_none _, rfl⟩, fun ht => absurd free ht, fun hc => ?_, fun r hr => ?_⟩
    · rw [existingRun, free] at hc
      cases hc
    · rw [hnew] at hr
      rw [← Option.some.inj hr]
      trivial
  | lose held => exact ⟨⟨rfl, by rw [held]; exact Option.some_ne_none _⟩, hsame⟩
  | replay status =>
    rw [hp.1] at status
    exact ⟨⟨hp.1, status⟩, hsame⟩
  | skip ended read =>
    refine ⟨.inr ⟨?_, hp.2⟩, hsame⟩
    rcases ended with rfl | rfl <;> simp
  | resume status => exact ⟨⟨hp.1, hp.2, rfl⟩, hsame⟩
  | read job => exact ⟨hp, hsame⟩
  | replayed job => exact ⟨.inl ⟨rfl, hp.2⟩, hsame⟩
  | observe ends =>
    refine ⟨?_, hsame⟩
    rcases ends with rfl | ⟨e, rfl⟩
    · exact .inl ⟨rfl, hp.2⟩
    · trivial
  | worked =>
    obtain ⟨hkey, hthere, hsettle⟩ := hp
    refine ⟨⟨hkey, hthere, ?_⟩, hsame⟩
    rw [← hsettle, settle_ok (hcue _ _ _ rfl rfl)]
  | @malformed c n reason locator =>
    obtain ⟨hkey, hthere, hsettle⟩ := hp
    have hwork := hcue _ _ _ rfl rfl
    refine ⟨⟨hkey, hthere, reason, locator, ?_⟩, hsame⟩
    rw [← hsettle]
    cases max - n <;> simp only [settle, hwork]
  | @retry c n text left =>
    obtain ⟨hkey, hthere, hsettle⟩ := hp
    have hwork := hcue _ _ _ rfl rfl
    obtain ⟨rest, hrest⟩ : ∃ rest, max - n = rest + 1 := ⟨max - n - 1, by omega⟩
    have hnext : max - (n + 1) = rest := by omega
    refine ⟨⟨hkey, hthere, ?_⟩, hsame⟩
    rw [← hsettle, hnext, hrest]
    simp only [settle, hwork]
  | @exhausted c n text done =>
    obtain ⟨hkey, hthere, hsettle⟩ := hp
    have hwork := hcue _ _ _ rfl rfl
    have hzero : max - n = 0 := by omega
    refine ⟨⟨hkey, hthere, ?_⟩, hsame⟩
    rw [← hsettle, hzero]
    simp only [settle, hwork]
  | @complete c n o now result committed =>
    obtain ⟨hkey, hthere, hsettle⟩ := hp
    obtain ⟨r, hr⟩ := Option.ne_none_iff_exists'.1 hthere
    have hdone : existingRun (completeRun s.runs m.idempotencyKey o) m.idempotencyKey = some .complete := by
      rw [existingRun, runOf_completeRun, if_pos rfl, hr]
      rfl
    rw [hkey]
    have hkept := @rowKept_set (settle work (max - 1) 1).2 s.runs m.idempotencyKey
      (fun r => { r with status := .complete, artifactRefs := o.artifactRefs, evidenceRefs := o.evidenceRefs })
      (fun _ => rfl) hrow (fun _ => by simp only [Holds, hsettle]) fun _ _ _ => rfl
    exact ⟨.inl ⟨rfl, hdone⟩, hkept⟩
  | refused error => exact ⟨trivial, hsame⟩
  | @fail c n text now =>
    obtain ⟨hkey, hthere, hsettle⟩ := hp
    rw [hkey, markRun]
    -- a complete row would hold another result
    have hkept := @rowKept_set (settle work (max - 1) 1).2 s.runs m.idempotencyKey (fun r => { r with status := .failed })
      (fun _ => rfl) hrow (fun _ => by simp only [Holds, hsettle]) fun r hr hs => by simp only [Holds, hs, hsettle] at hr
    exact ⟨.inr ⟨by simp, hkept.there hthere⟩, hkept⟩
  | sink => exact ⟨hp, hsame⟩
  | @quarantine c reason locator now =>
    obtain ⟨hkey, hthere, reason', locator', hsettle⟩ := hp
    rw [hkey, markRun]
    have hkept := @rowKept_set (settle work (max - 1) 1).2 s.runs m.idempotencyKey (fun r => { r with status := .quarantined })
      (fun _ => rfl) hrow (fun _ => by simp only [Holds, hsettle]) fun r hr hs => by simp only [Holds, hs, hsettle] at hr
    exact ⟨trivial, hkept⟩
  | crash live => exact ⟨trivial, hsame⟩

/-- A call that goes on is under its key. -/
theorem fits_claim {runs : List StageRun} {key : Uuid} (h : p.Fits max work runs key) (hlive : p.isOver = false)
    {c : StageRunClaim} (hc : p.claim? = some c) : c.idempotencyKey = key := by
  cases p with
  | lost | replaying | observing | working | completing | failing | sinking | quarantining =>
    cases hc
    exact h.1
  | returned => cases hlive
  | _ => cases hc

/-- What holds of a phase goes on holding while others step. -/
theorem fits_kept {runs runs' : List StageRun} {key : Uuid} (hthere : runOf runs key ≠ none → runOf runs' key ≠ none)
    (hcomplete : existingRun runs key = some .complete → existingRun runs' key = some .complete)
    (h : p.Fits max work runs key) : p.Fits max work runs' key := by
  cases p with
  | lost => exact ⟨h.1, hthere h.2⟩
  | replaying | observing => exact ⟨h.1, hcomplete h.2⟩
  | working | completing | failing | sinking | quarantining => exact ⟨h.1, hthere h.2.1, h.2.2⟩
  | returned r =>
    rcases h with ⟨hs, hc⟩ | ⟨hs, ht⟩
    · exact .inl ⟨hs, hcomplete hc⟩
    · exact .inr ⟨hs, hthere ht⟩
  | _ => trivial

end Settles

end Umd.Jobs
