import Umd.Jobs.ClaimOnce
/-!
# One completion

What the ledger and the row of a key say of each other. They agree in every
state as long as a late caller neither completes a complete row with other refs
nor marks it failed or quarantined: the update of the row runs also where the
append was deduplicated, and a mark looks at nothing.
-/

namespace Umd.Jobs

open Umd.Lib Umd.Events Umd.Ledger Umd.Reducer

variable {max : Nat} {manifests : Nat → StageManifest}

/-- A completion runs on a complete row only with the refs of the row, and a failure or quarantine marks no complete row. -/
def MarksOpenRows (s : Calls) (a : Nat × Cue) : Prop :=
  match s.phase a.1, a.2 with
  | .completing c _ o, .next _ => ∀ row, runOf s.store.runs c.idempotencyKey = some row → row.status = .complete →
      row.artifactRefs = o.artifactRefs ∧ row.evidenceRefs = o.evidenceRefs
  | .failing c _ _, .next _ => existingRun s.store.runs c.idempotencyKey ≠ some .complete
  | .quarantining c _ _, .next _ => existingRun s.store.runs c.idempotencyKey ≠ some .complete
  | _, _ => True

/-- The rows of the ledger with a key. -/
def withKey (events : List EventRow) (key : Uuid) : List EventRow := events.filter fun r => r.idempotencyKey == some key

/-- The event carries the refs of the row. -/
structure Carries (ev : EventRow) (row : StageRun) : Prop where
  type : ev.eventType = .StageCompleted
  artifacts : ev.payload.get "artifact_refs" = texts row.artifactRefs
  evidence : ev.payload.get "evidence_refs" = texts row.evidenceRefs

/-- Exactly one event has the completion key of the row, and it carries the row's refs. -/
def Committed (s : RunStore) (row : StageRun) : Prop :=
  ∃ ev, withKey s.ledger.events (completionKey row.idempotencyKey) = [ev] ∧ Carries ev row

/-- A key is complete in both places or in neither. -/
def Agrees (s : RunStore) (key : Uuid) : Prop :=
  (withKey s.ledger.events (completionKey key) = [] ∧ existingRun s.runs key ≠ some .complete) ∨
    ∃ ev row, withKey s.ledger.events (completionKey key) = [ev] ∧ runOf s.runs key = some row ∧
      row.status = .complete ∧ Carries ev row

/-! ## Keys -/

theorem completionKey_inj {k k' : Uuid} : completionKey k = completionKey k' ↔ k = k' := by
  simp [completionKey, deterministicUuid]

theorem completionKey_ne_attributionKey {k k' : Uuid} {jobId : String} : completionKey k ≠ attributionKey k' jobId := by
  intro h
  have := congrArg (fun s => s.toList.head?) h
  simp [completionKey, attributionKey, deterministicUuid] at this

theorem seqOfKey_none {events : List EventRow} {key : Uuid} : seqOfKey events key = none ↔ withKey events key = [] := by
  simp [seqOfKey, withKey, List.find?_eq_none]

theorem withKey_append {events : List EventRow} {r : EventRow} {key : Uuid} :
    withKey (events ++ [r]) key = withKey events key ++ if r.idempotencyKey = some key then [r] else [] := by
  simp only [withKey, List.filter_append, List.filter_cons, List.filter_nil, beq_iff_eq]

/-- An append under one key leaves the events under another. -/
theorem withKey_other {db : Db} {ev : SemanticEvent} {key k : Uuid} (hk : k ≠ key) :
    withKey (append db (keyed ev key)).1.events k = withKey db.events k := by
  have h := append_keyed db ev key
  generalize append db (keyed ev key) = r at h ⊢
  cases h with
  | found => rfl
  | raised kept => rw [kept]
  | grown free prep h =>
    rw [h, withKey_append, EventRow.of, if_neg (by simpa using hk.symm), List.append_nil]

theorem stageCompleted_carries {m : StageManifest} {o : StageOutcome} {payloadBy by' : Dict} {pe : PreparedEvent} {n : Nat}
    {key : Option Uuid} {row : StageRun} (h : (stageCompleted m o payloadBy by').prepare = .ok pe) :
    Carries (.of pe n key)
      { row with status := .complete, artifactRefs := o.artifactRefs, evidenceRefs := o.evidenceRefs } := by
  obtain ⟨v, s, -, -, rfl⟩ := prepare_ok h
  -- no upcaster is retained for `StageCompleted`
  constructor <;> rfl

/-- A commit under a key finds the key and appends nothing, or finds it free and appends the event. -/
theorem append_committed {db : Db} {ev : SemanticEvent} {key : Uuid} {result : CommitResult}
    (h : (append db (keyed ev key)).2 = .ok result) :
    (seqOfKey db.events key ≠ none ∧ (append db (keyed ev key)).1 = db) ∨
      seqOfKey db.events key = none ∧ ∃ pe, ev.prepare = .ok pe ∧
        (append db (keyed ev key)).1.events = db.events ++ [.of pe db.nextSeq (some key)] := by
  have hcases := append_keyed db ev key
  generalize append db (keyed ev key) = r at h hcases ⊢
  cases hcases with
  | found hseq => exact .inl ⟨by simp [hseq], rfl⟩
  | raised => cases h
  | grown free prep hgrown => exact .inr ⟨free, _, prep, hgrown⟩

/-- An append that raises leaves the events. -/
theorem append_refused {db : Db} {ev : SemanticEvent} {key : Uuid} {e : AppendError}
    (h : (append db (keyed ev key)).2 = .error e) : (append db (keyed ev key)).1.events = db.events := by
  have hcases := append_keyed db ev key
  generalize append db (keyed ev key) = r at h hcases ⊢
  cases hcases with
  | raised kept => exact kept
  | _ => cases h

/-! ## What a step leaves agreed -/

theorem effect_agrees {m : StageManifest} {s s' : RunStore} {p p' : Phase} {cue : Cue}
    (h : Effect max m s p cue s' p') (hrow : ∀ c, p.claim? = some c → runOf s.runs c.idempotencyKey ≠ none)
    (hi : ∀ key, Agrees s key) (hok : MarksOpenRows { store := s, phase := fun _ => p } (0, cue)) :
    ∀ key, Agrees s' key := by
  intro key
  cases h with
  | claim free =>
    rcases hi key with ⟨hnone, hopen⟩ | ⟨ev, row, hev, hr, hs, hc⟩
    · left
      refine ⟨hnone, ?_⟩
      rw [existingRun_append]
      cases hr : existingRun s.runs key with
      | some status => rw [Option.some_or, ← hr]; exact hopen
      | none => rw [Option.none_or]; split <;> simp [StageRun.of]
    · right
      exact ⟨ev, row, hev, by rw [runOf_append, hr]; rfl, hs, hc⟩
  | @observe c o now p ends =>
    have hl : withKey (append s.ledger (observation m c o)).1.events (completionKey key) =
        withKey s.ledger.events (completionKey key) := withKey_other completionKey_ne_attributionKey
    rw [Agrees, hl]
    exact hi key
  | @complete c n o now result committed =>
    by_cases hk : key = c.idempotencyKey
    · subst hk
      obtain ⟨row, hr⟩ := Option.ne_none_iff_exists'.1 (hrow c rfl)
      right
      have hnew : runOf (completeRun s.runs c.idempotencyKey o) c.idempotencyKey = some
          { row with status := .complete, artifactRefs := o.artifactRefs, evidenceRefs := o.evidenceRefs } := by
        rw [runOf_completeRun, if_pos rfl, hr, Option.map_some]
      rw [completion] at committed ⊢
      rcases append_committed committed with ⟨hseq, hsame⟩ | ⟨free, pe, prep, hgrown⟩
      · -- deduplicated: the row was complete, and with these refs
        rcases hi c.idempotencyKey with ⟨hnone, -⟩ | ⟨ev, row', hev, hr', hs, hcar⟩
        · exact absurd (seqOfKey_none.2 hnone) hseq
        · cases hr.symm.trans hr'
          obtain ⟨ha, he⟩ := hok row hr hs
          exact ⟨ev, _, by rw [hsame]; exact hev, hnew, rfl, hcar.type, ha ▸ hcar.artifacts, he ▸ hcar.evidence⟩
      · refine ⟨.of pe s.ledger.nextSeq (some (completionKey c.idempotencyKey)), _, ?_, hnew, rfl,
          stageCompleted_carries prep⟩
        rw [hgrown, withKey_append, seqOfKey_none.1 free, EventRow.of, if_pos rfl, List.nil_append]
    · rw [completion]
      have hl := fun ev => @withKey_other s.ledger ev _ _ (mt completionKey_inj.1 hk)
      rcases hi key with ⟨hnone, hopen⟩ | ⟨ev, row, hev, hr, hs, hc⟩
      · exact .inl ⟨(hl _).trans hnone, by rw [existingRun_completeRun_ne hk]; exact hopen⟩
      · exact .inr ⟨ev, row, (hl _).trans hev, by rw [runOf_completeRun, if_neg hk]; exact hr, hs, hc⟩
  | @refused c n o now e error =>
    have hkept : (append s.ledger (completion m c.idempotencyKey o)).1.events = s.ledger.events := append_refused error
    rw [Agrees, hkept]
    exact hi key
  | fail | quarantine =>
    rcases hi key with ⟨hnone, hopen⟩ | ⟨ev, row, hev, hr, hs, hc⟩
    · left
      refine ⟨hnone, ?_⟩
      rw [existingRun_markRun]
      split
      · simp
      · exact hopen
    · right
      refine ⟨ev, row, hev, ?_, hs, hc⟩
      rw [runOf_markRun, if_neg, hr]
      rintro rfl
      exact hok (by rw [existingRun, hr, Option.map_some, hs])
  | _ => exact hi key

/-! ## Every run -/

/-- Every claim has its row, and the two tables agree on every key. -/
structure Agreed (s : Calls) : Prop where
  row : ∀ i c, (s.phase i).claim? = some c → runOf s.store.runs c.idempotencyKey ≠ none
  keys : ∀ key, Agrees s.store key

theorem Agreed.step {s s' : Calls} {a : Nat × Cue} (hi : Agreed s) (hok : MarksOpenRows s a)
    (h : s.step max manifests a = some s') : Agreed s' := by
  obtain ⟨i, cue⟩ := a
  obtain ⟨p', he, hphase⟩ := calls_step h
  constructor
  · intro j c hc
    by_cases hj : j = i
    · subst hj
      rw [hphase, upd_self] at hc
      rcases effect_claim he hc with hc | ⟨-, hk, hrow, -⟩
      · exact effect_rows he (hi.row j c hc)
      · rw [hk]; exact hrow
    · rw [hphase, upd_ne _ _ hj] at hc
      exact effect_rows he (hi.row j c hc)
  · exact effect_agrees he (hi.row i) hi.keys hok

/-- A complete row stays complete. -/
theorem effect_stays {m : StageManifest} {s s' : RunStore} {p p' : Phase} {cue : Cue} (h : Effect max m s p cue s' p')
    (hok : MarksOpenRows { store := s, phase := fun _ => p } (0, cue)) {key : Uuid}
    (hk : existingRun s.runs key = some .complete) : existingRun s'.runs key = some .complete := by
  cases h with
  | claim free => rw [existingRun_append, hk]; rfl
  | complete =>
    obtain ⟨row, hr, hs⟩ := Option.map_eq_some_iff.1 hk
    rw [existingRun, runOf_completeRun]
    split
    · rw [hr]; rfl
    · rw [hr, Option.map_some, hs]
  | fail | quarantine =>
    rw [existingRun_markRun, if_neg, hk]
    rintro rfl
    exact hok hk
  | _ => exact hk

/-- What is to hold of the two tables. -/
structure CompletedOnce (s : Calls) : Prop where
  committed : ∀ key row, runOf s.store.runs key = some row → row.status = .complete → Committed s.store row

theorem step_worked {s : Calls} {i n : Nat} {c : StageRunClaim} {o : StageOutcome} (hp : s.phase i = .working c n) :
    s.step max manifests (i, .work (.ok o)) = some { s with phase := upd s.phase i (.completing c n o) } := by
  simp only [Calls.step, hp, Phase.step, Option.map_some]

theorem step_complete {s : Calls} {i n now : Nat} {c : StageRunClaim} {o : StageOutcome} {db : Db} {result : CommitResult}
    (hp : s.phase i = .completing c n o)
    (ha : append s.store.ledger (completion (manifests i) c.idempotencyKey o) = (db, .ok result)) :
    s.step max manifests (i, .next now) = some {
      store := { s.store with ledger := db, runs := completeRun s.store.runs c.idempotencyKey o }
      phase := upd s.phase i (.returned { claim := c, outcome := some o, state := .complete, attempts := n
                                          completionSeq := some result.seq }) } := by
  simp only [Calls.step, hp, Phase.step, complete, ha, Option.map_some]

theorem append_found {db : Db} {ev : SemanticEvent} {key : Uuid} {n : Nat} (h : seqOfKey db.events key = some n) :
    append db (keyed ev key) = (db, .ok ⟨n, n⟩) := by
  simp [append, keyed, h]

/-- The completion of `segmentation` with some refs. -/
def segmented (refs : List String) : Call :=
  completion segmentation segmentation.idempotencyKey { artifactRefs := refs }

/-- The first completion is appended, with its refs. -/
theorem append_segmented :
    ∃ db, append {} (segmented ["first"]) = (db, .ok ⟨1, 1⟩) ∧
      seqOfKey db.events (completionKey segmentation.idempotencyKey) = some 1 ∧
      ∀ ev ∈ db.events, ev.payload.get "artifact_refs" = texts ["first"] := by
  have h : ∃ db, append {} (segmented ["first"]) = (db, .ok ⟨1, 1⟩) := ⟨_, rfl⟩
  obtain ⟨db, h⟩ := h
  refine ⟨db, h, ?_⟩
  rw [segmented, completion] at h
  rcases append_committed (congrArg Prod.snd h) with ⟨hseq, -⟩ | ⟨-, pe, prep, hgrown⟩
  · exact absurd rfl hseq
  · rw [h, List.nil_append] at hgrown
    dsimp only at hgrown
    rw [hgrown]
    refine ⟨by simp [seqOfKey, EventRow.of], fun ev hev => ?_⟩
    rw [List.mem_singleton.1 hev]
    have hc := @stageCompleted_carries _ _ _ _ _ db.nextSeq none (.of "" segmentation 0) prep
    exact hc.artifacts

/-- A run goes on by a step whose result is known. -/
theorem run_next {s₀ s : Calls} {a : Nat × Cue} {store : RunStore} {phase : Nat → Phase}
    (hrun : Run (Calls.step max manifests) Any s₀ s) (h : s.step max manifests a = some ⟨store, phase⟩) :
    ∃ s', Run (Calls.step max manifests) Any s₀ s' ∧ s'.store = store ∧ s'.phase = phase :=
  ⟨_, hrun.step trivial h, rfl, rfl⟩

end Umd.Jobs
