import Umd.Jobs.Executor
/-!
# What a call gives to later stages

The refs a call of `run` alone returns are settled by the row of its key and the
attempts of its work (`refsOf`), and stay settled wherever the call is cut off:
the row it leaves answers the next call with the same refs (`drive_refs`).
-/

namespace Umd.Jobs

open Umd.Lib Umd.Events Umd.Ledger

/-- The refs a returned record gives to later stages. -/
def contributed (record : StageRunRecord) : List String :=
  if record.state = .complete then
    match record.outcome with
    | some outcome => outcome.artifactRefs
    | none => []
  else []

/-- The refs of work that is still to be done. -/
def workRefs (max : Nat) (work : Nat → WorkResult) : List String :=
  match (settle work (max - 1) 1).2 with
  | .ok outcome => outcome.artifactRefs
  | _ => []

/-- The refs a call on a key gives: those of its row where the row has ended, else those of the work. -/
def refsOf (max : Nat) (work : Nat → WorkResult) (runs : List StageRun) (key : Uuid) : List String :=
  match runOf runs key with
  | none => workRefs max work
  | some row =>
    match row.status with
    | .complete => row.artifactRefs
    | .cancelled | .quarantined => []
    | _ => workRefs max work

variable {max : Nat} {m : StageManifest} {work : Nat → WorkResult} {now : Nat}

theorem rowEnded_iff {runs : List StageRun} {key : Uuid} {row : StageRun} (h : runOf runs key = some row) :
    RowEnded runs key ↔ row.status ∈ [StageStatus.complete, .cancelled, .quarantined] := by
  rw [RowEnded, existingRun, h]
  simp

theorem refsOf_open {runs : List StageRun} {key : Uuid} (h : ¬ RowEnded runs key) : refsOf max work runs key = workRefs max work := by
  unfold refsOf
  split
  · rfl
  · rename_i row hrow
    rw [rowEnded_iff hrow] at h
    simp only [List.mem_cons, List.not_mem_nil, or_false, not_or] at h
    obtain ⟨h1, h2, h3⟩ := h
    split
    · rename_i hs; exact absurd hs h1
    · rename_i hs; exact absurd hs h2
    · rename_i hs; exact absurd hs h3
    · rfl

theorem refsOf_complete {runs : List StageRun} {key : Uuid} {row : StageRun} (h : runOf runs key = some row)
    (hs : row.status = .complete) : refsOf max work runs key = row.artifactRefs := by
  simp only [refsOf, h, hs]

theorem refsOf_skipped {runs : List StageRun} {key : Uuid} {status : StageStatus} (hs : status = .cancelled ∨ status = .quarantined)
    (h : existingRun runs key = some status) : refsOf max work runs key = [] := by
  obtain ⟨row, hrow, rfl⟩ := Option.map_eq_some_iff.1 h
  rcases hs with hs | hs <;> simp only [refsOf, hrow, hs]

/-- The key has a row and the row has not ended. -/
def OpenRow (runs : List StageRun) (key : Uuid) : Prop := runOf runs key ≠ none ∧ ¬ RowEnded runs key

/-- What holds of a phase with the rows it is in. -/
def Phase.Settles (max : Nat) (work : Nat → WorkResult) (runs : List StageRun) (key : Uuid) : Phase → Prop
  | .lost _ => runOf runs key ≠ none
  | .working _ k => OpenRow runs key ∧ settle work (max - k) k = settle work (max - 1) 1
  | .completing _ _ o => OpenRow runs key ∧ (settle work (max - 1) 1).2 = .ok o
  | .failing _ _ text => OpenRow runs key ∧ (settle work (max - 1) 1).2 = .error text
  | .sinking .. | .quarantining .. => OpenRow runs key ∧ ∃ reason locator, (settle work (max - 1) 1).2 = .malformed reason locator
  | .replaying _ => existingRun runs key = some .complete
  | .observing _ o => existingRun runs key = some .complete ∧ o.artifactRefs = refsOf max work runs key
  | .returned r => contributed r = refsOf max work runs key ∧ (r.state = .complete ↔ existingRun runs key = some .complete)
  | _ => True

theorem openRow_of_claim {runs : List StageRun} (free : runOf runs m.idempotencyKey = none) :
    OpenRow (runs ++ [.of m.idempotencyKey m now]) m.idempotencyKey := by
  have hrow : runOf (runs ++ [.of m.idempotencyKey m now]) m.idempotencyKey = some (.of m.idempotencyKey m now) := by
    rw [runOf_append, free, StageRun.of, if_pos rfl, Option.none_or]
  refine ⟨by rw [hrow]; exact Option.some_ne_none _, ?_⟩
  rw [rowEnded_iff hrow]
  simp [StageRun.of]

theorem openRow_marked {runs : List StageRun} {key : Uuid} (h : OpenRow runs key) : OpenRow (markRun runs key .failed) key := by
  obtain ⟨row, hrow⟩ := Option.ne_none_iff_exists'.1 h.1
  have hmarked : runOf (markRun runs key .failed) key = some { row with status := .failed } := by
    rw [runOf_markRun, if_pos rfl, hrow, Option.map_some]
  refine ⟨by rw [hmarked]; exact nofun, ?_⟩
  rw [rowEnded_iff hmarked]
  simp

/-- What a replay returns is what the row holds. -/
theorem committedOutcome_refs {runs : List StageRun} {key : Uuid} (h : existingRun runs key = some .complete) :
    (committedOutcome runs key).artifactRefs = refsOf max work runs key := by
  obtain ⟨row, hrow, hs⟩ := Option.map_eq_some_iff.1 h
  rw [refsOf_complete hrow hs, committedOutcome, hrow]

/-- A step of the call leaves its refs and what holds of its phase. -/
theorem effect_settles {s s' : RunStore} {p p' : Phase} {cue : Cue} (h : Effect max m s p cue s' p')
    (hcue : ∀ result, cue = .work result → ∃ c k, p = .working c k ∧ work k = result)
    (hkey : ∀ c, p.claim? = some c → c.idempotencyKey = m.idempotencyKey) (hp : p.Settles max work s.runs m.idempotencyKey) :
    refsOf max work s'.runs m.idempotencyKey = refsOf max work s.runs m.idempotencyKey ∧
      p'.Settles max work s'.runs m.idempotencyKey := by
  cases h with
  | @claim now free =>
    have hopen := @openRow_of_claim m now _ free
    refine ⟨?_, hopen, rfl⟩
    rw [refsOf_open hopen.2, refsOf_open (not_ended_of_free free)]
  | lose held => exact ⟨rfl, by rw [Phase.Settles, held]; exact Option.some_ne_none _⟩
  | replay status => exact ⟨rfl, by rw [hkey _ rfl] at status; exact status⟩
  | @skip c now status ended read =>
    rw [hkey _ rfl] at read
    refine ⟨rfl, ?_, ?_⟩
    · rw [refsOf_skipped ended read]
      rcases ended with rfl | rfl <;> rfl
    · rw [read, Option.some.injEq]
  | @resume c now status =>
    rw [hkey _ rfl] at status
    refine ⟨rfl, ⟨hp, fun hended => ?_⟩, rfl⟩
    simp only [RowEnded, List.mem_cons, List.not_mem_nil, or_false] at hended status
    rcases hended with h | h | h
    · exact status _ (.inl rfl) h
    · exact status _ (.inr (.inl rfl)) h
    · exact status _ (.inr (.inr rfl)) h
  | @read c now job =>
    refine ⟨rfl, hp, ?_⟩
    rw [hkey c rfl]
    exact committedOutcome_refs hp
  | @replayed c now job =>
    refine ⟨rfl, ?_, iff_of_true rfl hp⟩
    rw [hkey c rfl]
    exact committedOutcome_refs hp
  | observe ends =>
    refine ⟨rfl, ?_⟩
    rcases ends with rfl | ⟨e, rfl⟩
    · exact ⟨hp.2, iff_of_true rfl hp.1⟩
    · trivial
  | @worked c n o =>
    obtain ⟨c', k, hphase, hwork⟩ := hcue _ rfl
    cases hphase
    refine ⟨rfl, hp.1, ?_⟩
    rw [← hp.2, settle_ok hwork]
  | @malformed c n reason locator =>
    obtain ⟨c', k, hphase, hwork⟩ := hcue _ rfl
    cases hphase
    refine ⟨rfl, hp.1, reason, locator, ?_⟩
    rw [← hp.2]
    cases max - n <;> simp only [settle, hwork]
  | @retry c n text left =>
    obtain ⟨c', k, hphase, hwork⟩ := hcue _ rfl
    cases hphase
    refine ⟨rfl, hp.1, ?_⟩
    obtain ⟨rest, hrest⟩ : ∃ rest, max - n = rest + 1 := ⟨max - n - 1, by omega⟩
    have hnext : max - (n + 1) = rest := by omega
    rw [← hp.2, hnext, hrest]
    simp only [settle, hwork]
  | @exhausted c n text done =>
    obtain ⟨c', k, hphase, hwork⟩ := hcue _ rfl
    cases hphase
    have hzero : max - n = 0 := by omega
    refine ⟨rfl, hp.1, ?_⟩
    rw [← hp.2, hzero]
    simp only [settle, hwork]
  | @complete c n o now result committed =>
    obtain ⟨row, hrow⟩ := Option.ne_none_iff_exists'.1 hp.1.1
    rw [hkey c rfl]
    have hcompleted : runOf (completeRun s.runs m.idempotencyKey o) m.idempotencyKey =
        some { row with status := .complete, artifactRefs := o.artifactRefs, evidenceRefs := o.evidenceRefs } := by
      rw [runOf_completeRun, if_pos rfl, hrow, Option.map_some]
    have hrefs : refsOf max work (completeRun s.runs m.idempotencyKey o) m.idempotencyKey = o.artifactRefs :=
      refsOf_complete hcompleted rfl
    refine ⟨?_, hrefs.symm, iff_of_true rfl ?_⟩
    · rw [hrefs, refsOf_open hp.1.2, workRefs, hp.2]
    · rw [existingRun, hcompleted, Option.map_some]
  | refused error => exact ⟨rfl, trivial⟩
  | @fail c n text now =>
    rw [hkey c rfl]
    have hopen := openRow_marked hp.1
    have hrefs : refsOf max work (markRun s.runs m.idempotencyKey .failed) m.idempotencyKey = [] := by
      rw [refsOf_open hopen.2, workRefs, hp.2]
    refine ⟨?_, hrefs.symm, iff_of_false (fun hc => by cases hc) fun hc => hopen.2 ?_⟩
    · rw [hrefs, refsOf_open hp.1.2, workRefs, hp.2]
    · rw [RowEnded, hc]
      exact List.mem_cons_self ..
  | sink => exact ⟨rfl, hp⟩
  | @quarantine c reason locator now =>
    obtain ⟨hopen, reason', locator', hsettle⟩ := hp
    obtain ⟨row, hrow⟩ := Option.ne_none_iff_exists'.1 hopen.1
    rw [hkey c rfl]
    refine ⟨?_, trivial⟩
    rw [refsOf_open hopen.2, workRefs, hsettle]
    refine refsOf_skipped (.inr rfl) ?_
    rw [existingRun, runOf_markRun, if_pos rfl, hrow]
    rfl
  | crash live => exact ⟨rfl, trivial⟩

/-- Wherever a call is cut off, the row answers with the same refs. -/
theorem drive_settles (n : Nat) (s : RunStore) :
    refsOf max work (drive max m work now n (s, .start)).1.runs m.idempotencyKey = refsOf max work s.runs m.idempotencyKey ∧
      (drive max m work now n (s, .start)).2.Settles max work (drive max m work now n (s, .start)).1.runs m.idempotencyKey := by
  have h : (refsOf max work (drive max m work now n (s, .start)).1.runs m.idempotencyKey = refsOf max work s.runs m.idempotencyKey ∧
      (drive max m work now n (s, .start)).2.Settles max work (drive max m work now n (s, .start)).1.runs m.idempotencyKey) ∧
      ∀ c, (drive max m work now n (s, .start)).2.claim? = some c → c.idempotencyKey = m.idempotencyKey := by
    refine drive_inv (fun x => (refsOf max work x.1.runs m.idempotencyKey = refsOf max work s.runs m.idempotencyKey ∧
      x.2.Settles max work x.1.runs m.idempotencyKey) ∧ ∀ c, x.2.claim? = some c → c.idempotencyKey = m.idempotencyKey)
      ⟨⟨rfl, by trivial⟩, by exact nofun⟩ ?_
    rintro ⟨s₁, p₁⟩ ⟨s₂, p₂⟩ ⟨⟨hrefs, hsettles⟩, hkey⟩ hstep
    have heffect := step_effect hstep
    have hcue : ∀ result, p₁.cue work now = .work result → ∃ c k, p₁ = .working c k ∧ work k = result := by
      intro result hc
      cases p₁ with
      | working c k => cases hc; exact ⟨c, k, rfl, rfl⟩
      | _ => cases hc
    obtain ⟨hrefs', hsettles'⟩ := effect_settles heffect hcue hkey hsettles
    refine ⟨⟨hrefs'.trans hrefs, hsettles'⟩, fun c hc => ?_⟩
    rcases effect_claim heffect hc with hc | ⟨-, hk, -⟩
    · exact hkey c hc
    · exact hk
  exact h.1

theorem drive_refs (n : Nat) (s : RunStore) :
    refsOf max work (drive max m work now n (s, .start)).1.runs m.idempotencyKey = refsOf max work s.runs m.idempotencyKey :=
  (drive_settles n s).1

/-- **What a call alone returns**: the refs of its row or its work, complete exactly where the row then is. -/
theorem execute_refs {s s' : RunStore} {r : StageRunRecord} (h : execute max m work now s = (s', .returned r)) :
    contributed r = refsOf max work s.runs m.idempotencyKey ∧
      (r.state = .complete ↔ existingRun s'.runs m.idempotencyKey = some .complete) := by
  obtain ⟨hrefs, hsettles⟩ := @drive_settles max m work now (max + 6) s
  rw [show drive max m work now (max + 6) (s, .start) = (s', .returned r) from h] at hrefs hsettles
  exact ⟨hsettles.1.trans hrefs, hsettles.2⟩

/-- The refs are those of the row a call leaves complete. -/
theorem mem_contributed_iff {s s' : RunStore} {r : StageRunRecord} (h : execute max m work now s = (s', .returned r))
    {ref : String} : ref ∈ contributed r ↔
      ∃ row, runOf s'.runs m.idempotencyKey = some row ∧ row.status = .complete ∧ ref ∈ row.artifactRefs := by
  obtain ⟨hrefs, hstate⟩ := execute_refs h
  have hafter : refsOf max work s'.runs m.idempotencyKey = refsOf max work s.runs m.idempotencyKey := by
    have := @drive_refs max m work now (max + 6) s
    rwa [show drive max m work now (max + 6) (s, .start) = (s', .returned r) from h] at this
  constructor
  · intro hmem
    have hcomplete : r.state = .complete := by
      by_contra hne
      rw [contributed, if_neg hne] at hmem
      cases hmem
    obtain ⟨row, hrow, hs⟩ := Option.map_eq_some_iff.1 (hstate.1 hcomplete)
    refine ⟨row, hrow, hs, ?_⟩
    rw [hrefs, ← hafter, refsOf_complete hrow hs] at hmem
    exact hmem
  · rintro ⟨row, hrow, hs, hmem⟩
    rw [hrefs, ← hafter, refsOf_complete hrow hs]
    exact hmem

end Umd.Jobs
