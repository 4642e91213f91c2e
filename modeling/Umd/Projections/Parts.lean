import Umd.Projections.Driver
/-!
# Builders of a part

A builder of one store works on a database of several: its runs read and write
that part alone (`runLocked_over`).
-/

namespace Umd.Projections

open Umd.Lib Umd.Events Umd.Reducer Umd.Ledger

/-- A store `σ` that is a part of the stores `τ`. -/
structure Part (τ σ : Type) where
  get : τ → σ
  put : σ → τ → τ
  get_put : ∀ s t, get (put s t) = s
  put_get : ∀ t, put (get t) t = t
  put_put : ∀ s s' t, put s (put s' t) = put s t

variable {τ σ : Type}

/-- The builder on its part. -/
def Builder.over (b : Builder σ) (p : Part τ σ) : Builder τ where
  projectionName := b.projectionName
  poisonEnabled := b.poisonEnabled
  prepare := fun d t => (b.prepare d (p.get t)).map (p.put · t)
  wipe := fun d t => (b.wipe d (p.get t)).map (p.put · t)
  apply := fun d ev t => (b.apply d ev (p.get t)).map (p.put · t)
  onSkip := fun d ev t => (b.onSkip d ev (p.get t)).map (p.put · t)
  onPause := fun d ev t => (b.onPause d ev (p.get t)).map (p.put · t)
  finalize := fun d t => (b.finalize d (p.get t)).map (p.put · t)

/-- The database with the part as its store. -/
def Projected.part (db : Projected τ) (p : Part τ σ) : Projected σ :=
  { events := db.events, quarantined := db.quarantined, checkpoints := db.checkpoints, stores := p.get db.stores }

/-- The part put back. -/
def Projected.withPart (db : Projected τ) (p : Part τ σ) (db' : Projected σ) : Projected τ :=
  { events := db'.events, quarantined := db'.quarantined, checkpoints := db'.checkpoints, stores := p.put db'.stores db.stores }

theorem Projected.withPart_part (db : Projected τ) (p : Part τ σ) : db.withPart p (db.part p) = db := by
  unfold withPart part
  simp [p.put_get]

theorem over_apply (b : Builder σ) (p : Part τ σ) (d : Driver) (ev : SemanticEvent) (t : τ) :
    (b.over p).apply d ev t = (b.apply d ev (p.get t)).map (p.put · t) := rfl

theorem over_onSkip (b : Builder σ) (p : Part τ σ) (d : Driver) (ev : SemanticEvent) (t : τ) :
    (b.over p).onSkip d ev t = (b.onSkip d ev (p.get t)).map (p.put · t) := rfl

theorem over_finalize (b : Builder σ) (p : Part τ σ) (d : Driver) (t : τ) :
    (b.over p).finalize d t = (b.finalize d (p.get t)).map (p.put · t) := rfl

theorem openStore_over (b : Builder σ) (p : Part τ σ) (fresh : Bool) (d : Driver) (t : τ) :
    openStore (b.over p) fresh d t = (openStore b fresh d (p.get t)).map (p.put · t) := by
  unfold openStore
  cases fresh with
  | false => rfl
  | true =>
    change ((b.wipe d (p.get t)).map (p.put · t)).bind (fun t' => (b.prepare d (p.get t')).map (p.put · t')) =
      ((b.wipe d (p.get t)).bind (b.prepare d)).map (p.put · t)
    cases b.wipe d (p.get t) with
    | error e => rfl
    | ok s =>
      simp only [Except.map, Except.bind, p.get_put]
      cases b.prepare d s with
      | error e => rfl
      | ok s' => simp [p.put_put]

theorem replayLoop_over {b : Builder σ} {p : Part τ σ} {quarantined : List String} {poison : Bool} {n : Nat}
    {rows : List EventRow} : ∀ {d : Driver} {t : τ}, replayLoop (b.over p) quarantined poison n rows d t =
      ((replayLoop b quarantined poison n rows d (p.get t)).1,
        (replayLoop b quarantined poison n rows d (p.get t)).2.map (p.put · t)) := by
  induction rows with
  | nil => exact fun {d t} => by simp [replayLoop, Except.map, p.put_get]
  | cons row rows ih =>
    intro d t
    rw [replayLoop, replayLoop]
    cases d.fold (upcast row) with
    | error e => rfl
    | ok d =>
      dsimp only
      split
      · exact ih
      · split
        · rfl
        · split
          · rw [over_onSkip]
            cases b.onSkip _ (upcast row) (p.get t) with
            | error e => rfl
            | ok s =>
              simp only [Except.map, ih, p.get_put]
              cases (replayLoop b quarantined poison n rows _ s).2 <;> simp [p.put_put]
          · rw [over_apply]
            cases b.apply _ (upcast row) (p.get t) with
            | error e => rfl
            | ok s =>
              simp only [Except.map, ih, p.get_put]
              cases (replayLoop b quarantined poison n rows _ s).2 <;> simp [p.put_put]

/-- **A run of the builder on its part is its run, put back.** -/
theorem runLocked_over (b : Builder σ) (p : Part τ σ) (wipe forceResume : Bool) (db : Projected τ) (d : Driver) :
    runLocked (b.over p) wipe forceResume db d =
      (db.withPart p (runLocked b wipe forceResume (db.part p) d).1, (runLocked b wipe forceResume (db.part p) d).2) := by
  have hname : (b.over p).projectionName = b.projectionName := rfl
  have hpoison : (b.over p).poisonEnabled = b.poisonEnabled := rfl
  have hpart : (db.part p).checkpoints = db.checkpoints ∧ (db.part p).events = db.events ∧
      (db.part p).quarantined = db.quarantined ∧ (db.part p).stores = p.get db.stores := ⟨rfl, rfl, rfl, rfl⟩
  unfold runLocked
  simp only [hname, hpoison, hpart]
  split
  · rw [db.withPart_part p]
  · simp only [openStore_over]
    cases openStore b (wipe || forceResume) _ (p.get db.stores) with
    | error e =>
      rw [db.withPart_part p]
      rfl
    | ok s =>
      simp only [Except.map, replayLoop_over, p.get_put]
      obtain ⟨d', e | s'⟩ := replayLoop b db.quarantined _ _ (loadEvents db.events 0) _ s
      · rw [db.withPart_part p]
      · dsimp only
        rw [over_finalize, p.get_put]
        cases b.finalize d' s' with
        | error e =>
          rw [db.withPart_part p]
          rfl
        | ok s'' =>
          simp only [Except.map, p.put_put]
          rfl

end Umd.Projections
