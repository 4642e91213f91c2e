import Umd.Api.Consistency
import Umd.Projections.Publish
import Umd.Projections.Quarantine
/-!
# Reads of a published generation

Generations of the search projection are built by wiping runs into their own
schemas and published one after another, beside appends. The guard looks at the
one checkpoint of the projection, which every run saves whatever generation it
was for: what it lets through sees the events of its token as long as the
checkpoint never passes the published generation (`published_fresh`).
-/

namespace Umd.Api

open Umd.Lib Umd.Events Umd.Reducer Umd.Ledger Umd.Projections

/-! ## The system -/

structure GenerationWorld where
  ledger : Db := {}
  db : Projected Stores := { stores := {} }
  drivers : Nat → Driver := fun _ => {}
  generations : GenerationTable := []
  /-- For the statements: the position of the last run into a generation, or none if that run paused. -/
  built : Nat → Option Nat := fun _ => some 0

inductive GenerationAct where
  | append (call : Call)
  | beginBuild (name : String)
  /-- A wiping run into the schema of a generation. -/
  | run (driver generation : Nat) (forceResume : Bool)
  | markBuilt (name : String) (generation checkpointSeq : Nat)
  | publish (name : String) (generation now : Nat)

namespace GenerationWorld

/-- Nothing is appended or built; the drivers have these pause policies. -/
def initial (policy : Nat → Bool) (quarantined : List String) : GenerationWorld where
  db := { quarantined := quarantined, stores := {} }
  drivers := fun i => { pausePolicy := policy i }

variable (listed : CurrentReducedState → List Key) (gracePeriod : Nat)

/-- A wiping run of `SearchProjectionBuilder(schema_for("search", generation))`. -/
def build (w : GenerationWorld) (i generation : Nat) (forceResume : Bool) : Projected Stores × Driver × Except PyError BuildReport :=
  runLocked (searchBuilder listed (schemaFor searchProjection generation) (w.db.checkpoints edgeProjection)) true forceResume
    w.db (w.drivers i)

/-- The position kept of a run that has committed; a paused projection reports no wipe. -/
def builtBy (built : Nat → Option Nat) (generation : Nat) : Except PyError BuildReport → Nat → Option Nat
  | .error _ => built
  | .ok report =>
    if report.wipe then upd built generation (if report.paused then none else some report.appliedSeq) else built

def step (w : GenerationWorld) : GenerationAct → Option GenerationWorld
  | .append call =>
    let ledger := (append w.ledger call).1
    some { w with ledger := ledger, db := { w.db with events := ledger.events } }
  | .beginBuild name => some { w with generations := (w.generations.beginBuild name).1 }
  | .run i generation forceResume =>
    if w.generations.any (·.isOf searchProjection generation) then
      let r := w.build listed i generation forceResume
      some { w with db := r.1, drivers := upd w.drivers i r.2.1, built := builtBy w.built generation r.2.2 }
    else none
  | .markBuilt name generation n => some { w with generations := w.generations.markBuilt name generation n }
  | .publish name generation now => some { w with generations := w.generations.publish gracePeriod name generation now }

/-- The generation whose schema reads see. -/
def current (w : GenerationWorld) : Option Nat := w.generations.currentGeneration searchProjection

def docsOf (w : GenerationWorld) (generation : Nat) : DocTable := w.db.stores.docs (schemaFor searchProjection generation)

def freshness (w : GenerationWorld) : FreshnessSnapshot := snapshot w.db searchProjection

end GenerationWorld

/-! ## What is promised -/

section
variable (listed : CurrentReducedState → List Key)

/-- The documents of a log of which a run that does not pause skips machine noise, or nothing. -/
def searchDocs (quarantined : List String) (skips : Bool) (rows : List EventRow) : Except PyError DocTable := do
  let s ← reduceAll {} (logOf rows)
  baseDocs listed s (applyAll (rows.filter fun row => !(skips && referencesQuarantine (upcast row) quarantined)) [])

/-- The documents are those of the log up to a seq at or past the token. -/
def Reflects (quarantined : List String) (rows : List EventRow) (token : Nat) (docs : DocTable) : Prop :=
  ∃ n skips, token ≤ n ∧ searchDocs listed quarantined skips (rows.filter fun r => r.seq ≤ n) = .ok docs

/-- A run into another generation saves no position past the published one, and a generation is published when the
checkpoint is not past its own run. A run that pauses or raises, and publishing under a pause, let no read through. -/
def KeepsPublished (w : GenerationWorld) : GenerationAct → Prop
  | .run i generation forceResume =>
    (forceResume = true ∨ ((w.db.checkpoints searchProjection).getD {}).pauseReason = none) →
    (w.db.events.any (pausesAt (mayPause forceResume (w.drivers i)) 0) = false) →
    (∃ docs, searchDocs listed w.db.quarantined (mayPause forceResume (w.drivers i)) w.db.events = .ok docs) →
    ∀ p, w.current = some p → p ≠ generation → ∃ n, w.built p = some n ∧ tailOf w.db.events ≤ n
  | .publish name generation _ =>
    name = searchProjection → w.generations.any (·.isOf name generation) → w.freshness.paused = false →
    ∃ n, w.built generation = some n ∧ w.db.applied searchProjection ≤ n
  | _ => True

end

/-! ## What a run leaves -/

/-- A driver that pauses names a reason. -/
def PauseNamed (d : Driver) : Prop := d.paused = true → d.pauseReason.any (· ≠ "") = true

theorem classify_reason {ev : SemanticEvent} {q : List String} (h : (classify ev q).decision = .pause) :
    (classify ev q).reason ≠ "" := by
  unfold classify at h ⊢
  split
  · intro he
    have hlen := congrArg String.length he
    simp only [String.length_append] at hlen
    have hfirst : "authority-relevant ".length = 19 := by decide
    have hempty : "".length = 0 := rfl
    omega
  · split at h
    · contradiction
    · split at h <;> cases h

theorem replayLoop_named {σ : Type} {b : Builder σ} {q : List String} {poison : Bool} {n : Nat} {rows : List EventRow} {d : Driver}
    {t : σ} (h : PauseNamed d) : PauseNamed (replayLoop b q poison n rows d t).1 := by
  induction rows generalizing d t with
  | nil => exact h
  | cons row rows ih =>
    rw [replayLoop]
    cases hf : d.fold (upcast row) with
    | error e => exact h
    | ok d₁ =>
      have hd₁ : PauseNamed d₁ := by
        unfold Driver.fold at hf
        split at hf
        · cases hr : reduce d.state (upcast row) with
          | error e => rw [hr] at hf; cases hf
          | ok state => rw [hr] at hf; cases hf; exact h
        · cases hf; exact h
      dsimp only
      split
      · exact ih hd₁
      · split
        · rename_i hp
          intro _
          simpa using classify_reason hp.1
        · split
          · cases b.onSkip _ (upcast row) t with
            | error e => exact hd₁
            | ok t' => exact ih hd₁
          · cases b.apply _ (upcast row) t with
            | error e => exact hd₁
            | ok t' => exact ih hd₁

/-- A run of a projection that is not paused, or forced. -/
theorem runLocked_ran {σ : Type} {b : Builder σ} {wipe forceResume : Bool} {db : Projected σ} {d : Driver}
    (hstart : forceResume = true ∨ ((db.checkpoints b.projectionName).getD {}).pauseReason = none) :
    PauseNamed (runLocked b wipe forceResume db d).2.1 ∧
    (∀ e, (runLocked b wipe forceResume db d).2.2 = .error e → (runLocked b wipe forceResume db d).1 = db) ∧
    ∀ report, (runLocked b wipe forceResume db d).2.2 = .ok report → report.wipe = wipe ∧
      report.paused = (runLocked b wipe forceResume db d).2.1.paused ∧
      report.appliedSeq = (runLocked b wipe forceResume db d).2.1.appliedSeq := by
  have hcond : ¬ (((db.checkpoints b.projectionName).getD {}).pauseReason ≠ none ∧ (!forceResume) = true) := by
    rintro ⟨h1, h2⟩
    rcases hstart with h | h
    · rw [h] at h2
      cases h2
    · exact h1 h
  unfold runLocked
  rw [if_neg hcond]
  dsimp only
  generalize hd : ({ d with paused := false, pauseReason := none, eventsSeen := 0, skipped := 0, state := {} } : Driver) = d₀
  have hd₀ : PauseNamed d₀ := by
    rw [← hd]
    exact nofun
  cases openStore b (wipe || forceResume) d₀ db.stores with
  | error e => exact ⟨hd₀, fun _ _ => rfl, nofun⟩
  | ok t =>
    dsimp only
    have hnamed := @replayLoop_named _ b db.quarantined (b.poisonEnabled && !forceResume)
      (if wipe = true ∨ forceResume = true then 0 else if wipe = true then 0 else
        ((db.checkpoints b.projectionName).getD {}).appliedSeq) (loadEvents db.events 0) d₀ t hd₀
    generalize replayLoop b db.quarantined _ _ (loadEvents db.events 0) d₀ t = r at hnamed ⊢
    obtain ⟨d', e | t'⟩ := r
    · exact ⟨hnamed, fun _ _ => rfl, nofun⟩
    · dsimp only
      cases b.finalize d' t' with
      | error e => exact ⟨hnamed, fun _ _ => rfl, nofun⟩
      | ok t'' =>
        refine ⟨hnamed, nofun, fun report h => ?_⟩
        cases h
        exact ⟨rfl, rfl, rfl⟩

/-! ## What holds between the steps -/

section
variable {listed : CurrentReducedState → List Key} {gracePeriod : Nat}

/-- A run that does not pause takes every event but what it skips. -/
theorem taken_unpaused {rows : List EventRow} (hp : ∀ r ∈ rows, 0 < r.seq) {quarantined : List String} {poison : Bool}
    (hno : rows.any (pausesAt poison 0) = false) :
    taken quarantined poison 0 rows = rows.filter fun row => !(poison && referencesQuarantine (upcast row) quarantined) := by
  have hall : rows.takeWhile (fun row => !pausesAt poison 0 row) = rows := by
    rw [List.takeWhile_eq_self_iff]
    intro r hr
    rw [List.any_eq_false] at hno
    simpa using hno r hr
  unfold taken
  rw [hall]
  exact List.filter_congr fun r hr => by simp [takes, hp r hr]

/-- An empty log leaves no document. -/
theorem searchDocs_nil (quarantined : List String) (skips : Bool) : searchDocs listed quarantined skips [] = .ok [] := by
  have hitems : rowItems listed {} = [] := by
    unfold rowItems
    rw [List.filterMap_eq_nil_iff]
    exact fun _ _ => rfl
  simp [searchDocs, baseDocs, hitems, logOf, reduceAll, applyAll, bind, Except.bind, pure, Except.pure]

/-- The edges are never built, the positions are in the log, and a generation that was built has the documents of the log up
to the position kept of it. -/
structure Kept (listed : CurrentReducedState → List Key) (w : GenerationWorld) : Prop where
  stored : Stored w.ledger
  events : w.db.events = w.ledger.events
  edges : w.db.stores.edges = []
  edgeCp : w.db.checkpoints edgeProjection = none
  drivers : ∀ i, (w.drivers i).appliedSeq ≤ tailOf w.ledger.events
  applied : w.db.applied searchProjection ≤ tailOf w.ledger.events
  built : ∀ g n, w.built g = some n → n ≤ tailOf w.ledger.events ∧
    ∃ skips, searchDocs listed w.db.quarantined skips (w.ledger.events.filter fun r => r.seq ≤ n) = .ok (w.docsOf g)
  current : ∀ g, w.current = some g → w.freshness.paused = false →
    ∃ n, w.built g = some n ∧ w.db.applied searchProjection ≤ n

theorem Kept.initial (policy : Nat → Bool) (quarantined : List String) : Kept listed (.initial policy quarantined) where
  stored := .empty
  events := rfl
  edges := rfl
  edgeCp := rfl
  drivers := fun _ => Nat.zero_le _
  applied := Nat.zero_le _
  built := by
    intro g n h
    cases h
    exact ⟨Nat.zero_le _, true, searchDocs_nil quarantined true⟩
  current := nofun

theorem Kept.append {w : GenerationWorld} (h : Kept listed w) (call : Call) :
    Kept listed { w with ledger := (Ledger.append w.ledger call).1
                         db := { w.db with events := (Ledger.append w.ledger call).1.events } } := by
  obtain ⟨new, hev, -, -, hnew⟩ := append_rows w.ledger call
  have hle : tailOf w.ledger.events ≤ tailOf (Ledger.append w.ledger call).1.events := by
    rw [hev]
    exact tailOf_append_le ..
  refine ⟨h.stored.append call, rfl, h.edges, h.edgeCp, fun i => (h.drivers i).trans hle, h.applied.trans hle, fun g n hg => ?_,
    h.current⟩
  obtain ⟨hn, skips, hdocs⟩ := h.built g n hg
  refine ⟨hn.trans hle, skips, ?_⟩
  dsimp only
  have hpast : new.filter (fun r => r.seq ≤ n) = [] := by
    rw [List.filter_eq_nil_iff]
    intro r hr
    have := h.stored.tail_lt
    have := hnew r hr
    simp only [decide_eq_true_eq]
    omega
  rw [hev, List.filter_append, hpast, List.append_nil]
  exact hdocs

/-- A run that leaves the database moves its driver alone. -/
theorem Kept.idle {w : GenerationWorld} (h : Kept listed w) (i : Nat) {d : Driver}
    (hd : d.appliedSeq ≤ tailOf w.ledger.events) : Kept listed { w with drivers := upd w.drivers i d } := by
  refine ⟨h.stored, h.events, h.edges, h.edgeCp, fun j => ?_, h.applied, h.built, h.current⟩
  by_cases hj : j = i
  · subst hj
    simpa only [upd_self] using hd
  · simpa only [upd_ne _ _ hj] using h.drivers j

theorem runLocked_driver {σ : Type} (b : Builder σ) (wipe forceResume : Bool) (db : Projected σ) (d : Driver) :
    (runLocked b wipe forceResume db d).2.1 = (replayPhase b wipe forceResume db d).1 := by
  rw [runLocked_phases]
  obtain ⟨d', e | (_ | ⟨cp, t⟩)⟩ := replayPhase b wipe forceResume db d <;> rfl

/-- A paused projection is left as it is by a run that is not forced. -/
theorem runLocked_refused {σ : Type} {b : Builder σ} {wipe forceResume : Bool} {db : Projected σ} {d : Driver}
    (h : ¬ (forceResume = true ∨ ((db.checkpoints b.projectionName).getD {}).pauseReason = none)) :
    (runLocked b wipe forceResume db d).1 = db ∧
      ∃ report, (runLocked b wipe forceResume db d).2.2 = .ok report ∧ report.wipe = false := by
  obtain ⟨hforce, hpaused⟩ := not_or.1 h
  unfold runLocked
  rw [if_pos ⟨hpaused, by simpa using hforce⟩]
  exact ⟨rfl, _, rfl, rfl⟩

/-- What a run into a generation commits when it does not pause: the documents of the whole log. -/
theorem Kept.complete {w : GenerationWorld} (h : Kept listed w) {i g : Nat} {forceResume : Bool} {d' : Driver}
    {cp : ProjectionCheckpoint} {t : Stores} {docs : DocTable}
    (hreplayed : Replayed (schemaFor searchProjection g) true forceResume w.db (w.drivers i) d' cp t)
    (hfin : finalizeSearch listed (w.db.checkpoints edgeProjection) d' w.db.stores.edges (t.docs (schemaFor searchProjection g)) =
      .ok docs) (hp : d'.paused = false) :
    w.db.events.any (pausesAt (mayPause forceResume (w.drivers i)) 0) = false ∧
    searchDocs listed w.db.quarantined (mayPause forceResume (w.drivers i)) w.ledger.events = .ok docs ∧
    d'.appliedSeq ≤ tailOf w.ledger.events ∧ w.ledger.events.filter (fun r => r.seq ≤ d'.appliedSeq) = w.ledger.events := by
  have hload : loadEvents w.db.events 0 = w.ledger.events := by
    rw [h.events]
    exact loadEvents_ordered h.stored.ordered h.stored.positive
  have hzero : startSeq searchProjection true forceResume w.db = 0 := if_pos (.inl rfl)
  have hpaused := hreplayed.paused
  have hstate := hreplayed.state hp
  have happlied := hreplayed.applied hp
  have hdocs := congrArg (·.docs (schemaFor searchProjection g)) hreplayed.stores
  rw [hp, hload, hzero] at hpaused
  rw [hload] at hstate
  simp only [Stores.setDocs_docs, hload, hzero, taken_unpaused h.stored.positive hpaused.symm] at hdocs
  rw [hzero] at happlied
  refine ⟨h.events ▸ hpaused.symm, ?_, ?_, ?_⟩
  · rw [finalizeSearch_eq, h.edges, h.edgeCp, hdocs] at hfin
    unfold searchDocs
    rw [hstate]
    simp only [bind, Except.bind]
    cases hb : baseDocs listed d'.state (applyAll (w.ledger.events.filter fun row =>
        !(mayPause forceResume (w.drivers i) && referencesQuarantine (upcast row) w.db.quarantined)) []) with
    | error e =>
      simp only [openDocs, Bool.true_or, if_true, hb] at hfin
      cases hfin
    | ok base =>
      simp only [openDocs, Bool.true_or, if_true, hb] at hfin
      have htrail : edgesTrail none d' = false := by simp [edgesTrail]
      simp only [Except.bind, htrail, Bool.false_eq_true, if_false] at hfin
      exact hfin
  · rw [happlied, h.events]
    split
    · exact Nat.le_refl _
    · exact h.drivers i
  · rw [List.filter_eq_self]
    intro r hr
    rw [happlied, if_pos ⟨r, h.events ▸ hr, h.stored.positive r hr⟩, h.events]
    simpa using le_tailOf hr

/-- The world after a run. -/
abbrev GenerationWorld.afterRun (w : GenerationWorld) (listed : CurrentReducedState → List Key) (i g : Nat) (forceResume : Bool) :
    GenerationWorld :=
  { w with
    db := (w.build listed i g forceResume).1
    drivers := upd w.drivers i (w.build listed i g forceResume).2.1
    built := GenerationWorld.builtBy w.built g (w.build listed i g forceResume).2.2 }

theorem Kept.run {w : GenerationWorld} (h : Kept listed w) {i g : Nat} {forceResume : Bool}
    (hok : KeepsPublished listed w (.run i g forceResume)) : Kept listed (w.afterRun listed i g forceResume) := by
  have htail : tailOf w.db.events = tailOf w.ledger.events := congrArg tailOf h.events
  have hdriver : (w.build listed i g forceResume).2.1.appliedSeq ≤ tailOf w.ledger.events := by
    unfold GenerationWorld.build
    rw [runLocked_driver]
    exact replayPhase_search.1 _ (h.drivers i) h.applied htail.le
  by_cases hstart : forceResume = true ∨ ((w.db.checkpoints searchProjection).getD {}).pauseReason = none
  case neg =>
    obtain ⟨hdb, report, hres, hwipe⟩ := @runLocked_refused _ (searchBuilder listed (schemaFor searchProjection g)
      (w.db.checkpoints edgeProjection)) true forceResume w.db (w.drivers i) hstart
    have hworld : w.afterRun listed i g forceResume = { w with drivers := upd w.drivers i (w.build listed i g forceResume).2.1 } := by
      have hbuilt : GenerationWorld.builtBy w.built g (w.build listed i g forceResume).2.2 = w.built := by
        unfold GenerationWorld.build
        rw [hres]
        simp [GenerationWorld.builtBy, hwipe]
      unfold GenerationWorld.afterRun
      rw [hbuilt, show (w.build listed i g forceResume).1 = w.db from hdb]
    rw [hworld]
    exact h.idle i hdriver
  case pos =>
    obtain ⟨hnamed, hraised, hreport⟩ := @runLocked_ran _ (searchBuilder listed (schemaFor searchProjection g)
      (w.db.checkpoints edgeProjection)) true forceResume w.db (w.drivers i) hstart
    generalize hrun : w.build listed i g forceResume = out at hdriver
    obtain ⟨db', d', e | report⟩ := out
    · -- what raises is rolled back
      have hrun' := hrun
      unfold GenerationWorld.build at hrun'
      rw [hrun'] at hraised
      have hdb : db' = w.db := hraised e rfl
      have hworld : w.afterRun listed i g forceResume = { w with drivers := upd w.drivers i d' } := by
        unfold GenerationWorld.afterRun
        rw [hrun, hdb]
        rfl
      rw [hworld]
      exact h.idle i hdriver
    · have hrun' := hrun
      unfold GenerationWorld.build at hrun'
      rw [hrun'] at hnamed hreport
      obtain ⟨hwipe, hrp, hra⟩ := hreport report rfl
      dsimp only at hrp hra hnamed
      obtain ⟨hev, hq, cp, t, docs, hreplayed, hfin, hstores, hcps⟩ := runLocked_search hstart hrun'
      have hworld : w.afterRun listed i g forceResume = { w with
          db := db', drivers := upd w.drivers i d'
          built := upd w.built g (if d'.paused then none else some d'.appliedSeq) } := by
        unfold GenerationWorld.afterRun
        rw [hrun]
        simp [GenerationWorld.builtBy, hwipe, hrp, hra]
      rw [hworld]
      have happlied : db'.applied searchProjection = d'.appliedSeq := by
        simp only [Projected.applied, hcps, upd_self, Option.getD_some, newCheckpoint_applied]
      have hdocs : ∀ g', db'.stores.docs (schemaFor searchProjection g') = if g' = g then docs else w.docsOf g' := by
        intro g'
        rw [hstores]
        by_cases hg : g' = g
        · subst hg
          rw [Stores.setDocs_docs, if_pos rfl]
        · rw [if_neg hg]
          exact upd_ne _ _ fun he => hg (schemaFor_inj he)
      refine ⟨h.stored, hev.trans h.events, ?_, ?_, fun j => ?_, happlied ▸ hdriver, fun g' n hg' => ?_, fun p hcurrent hunpaused => ?_⟩
      · rw [hstores]
        exact h.edges
      · rw [hcps]
        exact (upd_ne _ _ edge_ne_search).trans h.edgeCp
      · by_cases hj : j = i
        · subst hj
          simpa only [upd_self] using hdriver
        · simpa only [upd_ne _ _ hj] using h.drivers j
      · change _ ∧ ∃ skips, searchDocs listed db'.quarantined skips _ = .ok (db'.stores.docs (schemaFor searchProjection g'))
        rw [hdocs, hq]
        by_cases hg : g' = g
        · subst hg
          rw [if_pos rfl]
          simp only [upd_self] at hg'
          split at hg'
          · cases hg'
          · rename_i hp
            cases hg'
            obtain ⟨-, hwhole, hle, hall⟩ := h.complete hreplayed hfin (by simpa using hp)
            exact ⟨hle, _, by rw [hall]; exact hwhole⟩
        · rw [if_neg hg]
          simp only [upd_ne _ _ hg] at hg'
          exact h.built g' n hg'
      · change ∃ n, upd w.built g _ p = some n ∧ db'.applied searchProjection ≤ n
        have hp : d'.paused = false := by
          rw [Bool.eq_false_iff]
          intro hp
          have hreason : (snapshot db' searchProjection).paused = true := by
            simp only [snapshot, hcps, upd_self, Option.bind_some, newCheckpoint, hp, if_true, ProjectionCheckpoint.paused]
            have := hnamed hp
            cases hr : d'.pauseReason with
            | none => rw [hr] at this; cases this
            | some reason => rw [hr] at this; exact this
          exact absurd (hunpaused.symm.trans hreason) Bool.false_ne_true
        obtain ⟨hno, hwhole, hle, hall⟩ := h.complete hreplayed hfin hp
        rw [happlied]
        by_cases hg : p = g
        · subst hg
          exact ⟨_, by rw [upd_self, hp]; rfl, Nat.le_refl _⟩
        · -- a run into another generation
          obtain ⟨n, hn, hle'⟩ := hok hstart hno ⟨docs, by rw [h.events]; exact hwhole⟩ p hcurrent hg
          exact ⟨n, by rw [upd_ne _ _ hg]; exact hn, by omega⟩

theorem Kept.step {w w' : GenerationWorld} {a : GenerationAct} (h : Kept listed w) (hok : KeepsPublished listed w a)
    (hs : w.step listed gracePeriod a = some w') : Kept listed w' := by
  cases a with
  | append call =>
    cases hs
    exact h.append call
  | beginBuild name =>
    cases hs
    refine ⟨h.stored, h.events, h.edges, h.edgeCp, h.drivers, h.applied, h.built, fun g hg => h.current g ?_⟩
    rw [← hg]
    exact (GenerationTable.beginBuild_current ..).symm
  | run i g forceResume =>
    simp only [GenerationWorld.step] at hs
    split at hs
    · cases hs
      exact h.run hok
    · cases hs
  | markBuilt name g n =>
    cases hs
    refine ⟨h.stored, h.events, h.edges, h.edgeCp, h.drivers, h.applied, h.built, fun g hg => h.current g ?_⟩
    rw [← hg]
    exact (GenerationTable.markBuilt_current ..).symm
  | publish name g now =>
    cases hs
    refine ⟨h.stored, h.events, h.edges, h.edgeCp, h.drivers, h.applied, h.built, fun p hp hunpaused => ?_⟩
    by_cases hname : name = searchProjection
    · subst hname
      have hp' : (w.generations.publish gracePeriod searchProjection g now).currentGeneration searchProjection = some p := hp
      rw [GenerationTable.publish_current] at hp'
      split at hp'
      · rename_i hthere
        cases hp'
        exact hok rfl hthere hunpaused
      · cases hp'
    · refine h.current p ?_ hunpaused
      rw [← hp]
      exact (GenerationTable.publish_other (Ne.symm hname)).symm

/-- **What the guard lets through sees the events of its token**, in every state that is reached while the checkpoint never
passes the published generation. -/
theorem published_fresh {policy : Nat → Bool} {quarantined : List String} {w : GenerationWorld}
    (hrun : Run (GenerationWorld.step listed gracePeriod) (KeepsPublished listed) (.initial policy quarantined) w)
    {settings : ConsistencySettings} {token : Nat} {polls : List FreshnessSnapshot} (hpolls : ∀ s ∈ polls, s = w.freshness)
    (hread : ensureRead settings (some token) w.freshness polls = .ok w.freshness) {g : Nat} (hg : w.current = some g) :
    Reflects listed w.db.quarantined w.ledger.events token (w.docsOf g) := by
  have hkept : Kept listed w := hrun.inv (Kept listed) (.initial policy quarantined) fun _ _ _ hi hok hs => hi.step hok hs
  obtain ⟨hunpaused, htoken⟩ := (ensureRead_steady settings hpolls).1 hread
  obtain ⟨n, hn, hle⟩ := hkept.current g hg hunpaused
  obtain ⟨-, skips, hdocs⟩ := hkept.built g n hn
  exact ⟨n, skips, Nat.le_trans htoken hle, hdocs⟩

end

/-- A mention of this text. -/
def mentionOf (text : String) : GenerationAct :=
  .append (one .EntityMentioned [("mention_id", .str text), ("mention_text", .str text), ("source_id", .str "s")])

/-- The first generation is published. -/
def onePublished : List GenerationAct := [mentionOf "a", .beginBuild "search", .run 0 1 false, .publish "search" 1 5]

theorem published_fresh_one : ∃ w : GenerationWorld, w.current = some 1 ∧ w.db.applied searchProjection = 1 ∧
    Reflects noKeys w.db.quarantined w.ledger.events 1 (w.docsOf 1) := by
  have hrun : Run (GenerationWorld.step noKeys 300) (KeepsPublished noKeys) (.initial (fun _ => true) [])
      ((runAll (GenerationWorld.step noKeys 300) (.initial (fun _ => true) []) onePublished).getD {}) := by
    refine .step (a := .publish "search" 1 5) (.step (a := .run 0 1 false) (.step (a := .beginBuild "search")
      (.step (a := mentionOf "a") .refl trivial rfl) trivial rfl) ?_ rfl) ?_ rfl
    · exact fun _ _ _ p hp => by cases hp
    · exact fun _ _ _ => ⟨1, rfl, by decide⟩
  exact ⟨_, rfl, rfl, @published_fresh noKeys 300 _ _ _ hrun {} 1 [] (by simp) rfl 1 rfl⟩

/-- A second generation is built of one more mention and not published. -/
def twoBuilt : List GenerationAct := onePublished ++ [mentionOf "b", .beginBuild "search", .run 0 2 false]

/-- The guard lets the token of the second mention through, and the published generation does not have it. -/
theorem unpublished_build_counts : ¬ ∀ (listed : CurrentReducedState → List Key) (gracePeriod : Nat) (policy : Nat → Bool)
    (quarantined : List String) (w : GenerationWorld),
    Run (GenerationWorld.step listed gracePeriod) Any (.initial policy quarantined) w →
    ∀ (settings : ConsistencySettings) (token : Nat) (polls : List FreshnessSnapshot), (∀ s ∈ polls, s = w.freshness) →
    ensureRead settings (some token) w.freshness polls = .ok w.freshness → ∀ g, w.current = some g →
    Reflects listed w.db.quarantined w.ledger.events token (w.docsOf g) := by
  intro h
  obtain ⟨w, hall⟩ : ∃ w, runAll (GenerationWorld.step noKeys 300) (.initial (fun _ => true) []) twoBuilt = some w := ⟨_, rfl⟩
  obtain ⟨hpaused, htoken, hcurrent, hone, hseq, htwo⟩ : w.freshness.paused = false ∧ 2 ≤ w.freshness.appliedSeq ∧ w.current = some 1 ∧
      (w.docsOf 1).length = 1 ∧ (∀ r ∈ w.ledger.events, r.seq ≤ 2) ∧
      ∀ skips, (searchDocs noKeys w.db.quarantined skips w.ledger.events).toOption.map List.length = some 2 := by
    have hfacts : ∀ w ∈ runAll (GenerationWorld.step noKeys 300) (.initial (fun _ => true) []) twoBuilt,
        w.freshness.paused = false ∧ 2 ≤ w.freshness.appliedSeq ∧ w.current = some 1 ∧ (w.docsOf 1).length = 1 ∧
        (∀ r ∈ w.ledger.events, r.seq ≤ 2) ∧
        ∀ skips, (searchDocs noKeys w.db.quarantined skips w.ledger.events).toOption.map List.length = some 2 := by
      decide +kernel
    exact hfacts w hall
  have hread := (@ensureRead_steady {} 2 w.freshness [] (fun s hs => absurd hs List.not_mem_nil)).2 ⟨hpaused, htoken⟩
  obtain ⟨n, skips, hn, hdocs⟩ := h noKeys 300 _ _ w (run_of_runAll hall) {} 2 [] (by simp) hread 1 hcurrent
  have hfilter : w.ledger.events.filter (fun r => r.seq ≤ n) = w.ledger.events := by
    rw [List.filter_eq_self]
    intro r hr
    simpa using (hseq r hr).trans hn
  rw [hfilter] at hdocs
  have hdiffer := htwo skips
  rw [hdocs] at hdiffer
  exact absurd (Option.some.inj hdiffer) (by rw [hone]; decide)

end Umd.Api
