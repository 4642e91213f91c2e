import Umd.Lib.Steps
import Umd.Projections.Current
import Umd.Projections.Poison
/-!
# Runs of the replay driver

`ReplayDriver._run_locked` as one transaction: the checkpoint, the loop over the
log with the canonical fold and the poison policy, the builder's hooks, and the
checkpoint saved with the position the driver holds. That position is a field
of the driver: a run that applies nothing saves what an earlier run left there.
-/

namespace Umd.Projections

open Umd.Lib Umd.Events Umd.Reducer Umd.Ledger

/-- A row of `projection_checkpoint`. -/
structure ProjectionCheckpoint where
  appliedSeq : Nat := 0
  pauseReason : Option String := none
  pauseSeq : Nat := 0
deriving DecidableEq

namespace ProjectionCheckpoint

def withApplied (cp : ProjectionCheckpoint) (appliedSeq : Nat) : ProjectionCheckpoint :=
  { cp with appliedSeq := appliedSeq }

def paused (cp : ProjectionCheckpoint) (reason : String) (atSeq : Nat) : ProjectionCheckpoint :=
  { cp with pauseReason := some reason, pauseSeq := atSeq }

def resumed (cp : ProjectionCheckpoint) : ProjectionCheckpoint := { cp with pauseReason := none, pauseSeq := 0 }

end ProjectionCheckpoint

/-- The fields of a `ReplayDriver`. -/
structure Driver where
  pausePolicy : Bool := true
  state : CurrentReducedState := {}
  appliedSeq : Nat := 0
  eventsSeen : Nat := 0
  skipped : Nat := 0
  pauseReason : Option String := none
  paused : Bool := false

/-- A `ProjectionBuilder` over projection stores `σ`. -/
structure Builder (σ : Type) where
  projectionName : String
  poisonEnabled : Bool := true
  prepare : Driver → σ → Except PyError σ
  wipe : Driver → σ → Except PyError σ
  apply : Driver → SemanticEvent → σ → Except PyError σ
  onSkip : Driver → SemanticEvent → σ → Except PyError σ
  onPause : Driver → SemanticEvent → σ → Except PyError σ
  finalize : Driver → σ → Except PyError σ

structure BuildReport where
  projectionName : String
  appliedSeq : Nat
  ledgerTail : Nat
  skipped : Nat
  paused : Bool
  pauseReason : Option String
  eventsSeen : Nat
  wipe : Bool

/-- The database a driver works on. -/
structure Projected (σ : Type) where
  events : List EventRow := []
  quarantined : List String := []
  checkpoints : String → Option ProjectionCheckpoint := fun _ => none
  stores : σ

variable {σ : Type}

/-- `_report`. -/
def Driver.report (d : Driver) (name : String) (tail : Nat) (wipe : Bool) (eventsSeen : Nat) : BuildReport where
  projectionName := name
  appliedSeq := d.appliedSeq
  ledgerTail := tail
  skipped := d.skipped
  paused := d.paused
  pauseReason := d.pauseReason
  eventsSeen := eventsSeen
  wipe := wipe

/-- The canonical fold of one event. -/
def Driver.fold (d : Driver) (ev : SemanticEvent) : Except PyError Driver :=
  if ev.isSemantic then (reduce d.state ev).map fun state => { d with state := state } else .ok d

/-- The loop over the log. What raises leaves the fields the driver has by then. -/
def replayLoop (b : Builder σ) (quarantined : List String) (poison : Bool) (applyFrom : Nat) :
    List EventRow → Driver → σ → Driver × Except PyError σ
  | [], d, t => (d, .ok t)
  | row :: rows, d, t =>
    let sem := upcast row
    let seq := sem.seq.getD 0
    match d.fold sem with
    | .error e => (d, .error e)
    | .ok d =>
      -- already applied to the index in a prior run
      if seq ≤ applyFrom then replayLoop b quarantined poison applyFrom rows d t else
      let d := { d with eventsSeen := d.eventsSeen + 1 }
      let outcome := classify sem quarantined
      if outcome.decision = .pause ∧ d.pausePolicy ∧ poison then
        let d := { d with paused := true, pauseReason := some outcome.reason, appliedSeq := seq }
        (d, b.onPause d sem t)
      else if outcome.decision = .skip ∧ d.pausePolicy ∧ poison then
        let d := { d with skipped := d.skipped + 1, appliedSeq := seq }
        match b.onSkip d sem t with
        | .error e => (d, .error e)
        | .ok t => replayLoop b quarantined poison applyFrom rows d t
      else
        let d := { d with appliedSeq := seq }
        match b.apply d sem t with
        | .error e => (d, .error e)
        | .ok t => replayLoop b quarantined poison applyFrom rows d t

/-- `wipe` where it is asked for, and `prepare`. -/
def openStore (b : Builder σ) (fresh : Bool) (d : Driver) (t : σ) : Except PyError σ := do
  let t ← if fresh then b.wipe d t else pure t
  b.prepare d t

/-- The checkpoint a finished run saves. -/
def newCheckpoint (cp : ProjectionCheckpoint) (d : Driver) : ProjectionCheckpoint :=
  let cp := cp.withApplied d.appliedSeq
  if d.paused then cp.paused (d.pauseReason.getD "") d.appliedSeq else cp

/-- `_run_locked`. -/
def runLocked (b : Builder σ) (wipe forceResume : Bool) (db : Projected σ) (d : Driver) :
    Projected σ × Driver × Except PyError BuildReport :=
  let cp := (db.checkpoints b.projectionName).getD {}
  if cp.pauseReason ≠ none ∧ !forceResume then
    let d := { d with paused := true, pauseReason := cp.pauseReason, appliedSeq := cp.appliedSeq }
    (db, d, .ok (d.report b.projectionName (tailOf db.events) false 0))
  else
    let startSeq := if wipe then 0 else cp.appliedSeq
    let cp := if forceResume then cp.resumed else cp
    let d := { d with paused := false, pauseReason := none, eventsSeen := 0, skipped := 0, state := {} }
    let applyFrom := if wipe ∨ forceResume then 0 else startSeq
    match openStore b (wipe || forceResume) d db.stores with
    | .error e => (db, d, .error e)
    | .ok t =>
      let poison := b.poisonEnabled && !forceResume
      match replayLoop b db.quarantined poison applyFrom (loadEvents db.events 0) d t with
      | (d, .error e) => (db, d, .error e)
      | (d, .ok t) =>
        match b.finalize d t with
        | .error e => (db, d, .error e)
        | .ok t =>
          let db := { db with
            stores := t
            checkpoints := upd db.checkpoints b.projectionName (some (newCheckpoint cp d)) }
          (db, d, .ok (d.report b.projectionName (tailOf db.events) wipe d.eventsSeen))

/-- The applied position of a projection. -/
def Projected.applied (db : Projected σ) (name : String) : Nat := ((db.checkpoints name).getD {}).appliedSeq

/-! ## Any sequence of runs -/

/-- The database and the driver objects. -/
structure Replays (σ : Type) where
  db : Projected σ
  drivers : Nat → Driver := fun _ => {}

inductive RunAct (σ : Type) where
  /-- Anything appended to the log and to the quarantine between runs. -/
  | append (rows : List EventRow) (quarantined : List String)
  | run (driver : Nat) (b : Builder σ) (wipe : Bool)

def Replays.step (w : Replays σ) : RunAct σ → Option (Replays σ)
  | .append rows quarantined =>
    some { w with db := { w.db with events := w.db.events ++ rows, quarantined := quarantined } }
  | .run i b wipe =>
    let r := runLocked b wipe false w.db (w.drivers i)
    some { db := r.1, drivers := upd w.drivers i r.2.1 }

/-- Every builder has poison disabled. -/
def PoisonDisabled (_ : Replays σ) : RunAct σ → Prop
  | .run _ b _ => b.poisonEnabled = false
  | _ => True

/-- Where a run begins to apply events. -/
def applyFrom (db : Projected σ) (b : Builder σ) (wipe : Bool) : Nat := if wipe then 0 else db.applied b.projectionName

/-- The run finds an event to apply, or its driver stands at the tail already. -/
def ReachesTail (w : Replays σ) (driver : Nat) (b : Builder σ) (wipe : Bool) : Prop :=
  (∃ r ∈ w.db.events, applyFrom w.db b wipe < r.seq) ∨
    (w.drivers driver).appliedSeq = tailOf w.db.events

/-! ## What the loop leaves in the driver -/

theorem fold_applied {d d' : Driver} {ev : SemanticEvent} (h : d.fold ev = .ok d') :
    d'.appliedSeq = d.appliedSeq ∧ d'.paused = d.paused := by
  unfold Driver.fold at h
  split at h
  · cases hr : reduce d.state ev with
    | error e => rw [hr] at h; cases h
    | ok state => rw [hr] at h; cases h; exact ⟨rfl, rfl⟩
  · cases h; exact ⟨rfl, rfl⟩

/-- With poison disabled the position is the seq of the last event past `applyFrom`, if there is one. -/
theorem replayLoop_applied {b : Builder σ} {quarantined : List String} {applyFrom : Nat} {rows : List EventRow}
    {d : Driver} {t : σ} :
    (replayLoop b quarantined false applyFrom rows d t).1.paused = d.paused ∧
    (∀ n, d.appliedSeq ≤ n → (∀ r ∈ rows, r.seq ≤ n) →
      (replayLoop b quarantined false applyFrom rows d t).1.appliedSeq ≤ n) ∧
    ∀ t', (replayLoop b quarantined false applyFrom rows d t).2 = .ok t' →
      (replayLoop b quarantined false applyFrom rows d t).1.appliedSeq =
        (((rows.filter fun r => applyFrom < r.seq).map (·.seq)).getLast?).getD d.appliedSeq := by
  induction rows generalizing d t with
  | nil => exact ⟨rfl, fun n hn _ => hn, fun _ _ => rfl⟩
  | cons row rows ih =>
    have hseq : (upcast row).seq.getD 0 = row.seq := rfl
    rw [replayLoop]
    cases hf : d.fold (upcast row) with
    | error e => exact ⟨rfl, fun n hn _ => hn, fun t' h => by cases h⟩
    | ok d' =>
      obtain ⟨happ, hpaused⟩ := fold_applied hf
      simp only [hseq]
      split
      · -- applied in a prior run
        rename_i hle
        obtain ⟨h1, h2, h3⟩ := @ih d' t
        refine ⟨h1.trans hpaused, fun n hn hr => h2 n (happ ▸ hn) fun r h => hr r (List.mem_cons_of_mem _ h),
          fun t' h => ?_⟩
        rw [h3 t' h, happ, List.filter_cons_of_neg (by simpa using hle)]
      · rename_i hlt
        simp only [Bool.false_eq_true, and_false, if_false]
        cases ha : b.apply { d' with eventsSeen := d'.eventsSeen + 1, appliedSeq := row.seq } (upcast row) t with
        | error e => exact ⟨hpaused, fun n _ hr => hr row (by simp), fun t' h => by cases h⟩
        | ok t₁ =>
          obtain ⟨h1, h2, h3⟩ := @ih { d' with eventsSeen := d'.eventsSeen + 1, appliedSeq := row.seq } t₁
          refine ⟨h1.trans hpaused, fun n _ hr => h2 n (hr row (by simp)) fun r h => hr r (List.mem_cons_of_mem _ h),
            fun t' h => ?_⟩
          rw [h3 t' h, List.filter_cons_of_pos (by simpa using hlt), List.map_cons, List.getLast?_cons,
            Option.getD_some]

/-! ## The position of the tail -/

theorem pairwise_loadEvents (rows : List EventRow) (after : Nat) :
    (loadEvents rows after).Pairwise fun r r' => r.seq ≤ r'.seq :=
  List.pairwise_insertionSort (r := fun (r r' : EventRow) => r.seq ≤ r'.seq) _

theorem mem_loadEvents {rows : List EventRow} {after : Nat} {r : EventRow} :
    r ∈ loadEvents rows after ↔ r ∈ rows ∧ after < r.seq := by
  rw [loadEvents, List.mem_insertionSort, List.mem_filter, decide_eq_true_eq]

/-- The last event past a seq is the tail of the log. -/
theorem getLast?_past {rows : List EventRow} {n : Nat} (h : ∃ r ∈ rows, n < r.seq) :
    (((loadEvents rows 0).filter fun r => n < r.seq).map (·.seq)).getLast? = some (tailOf rows) := by
  obtain ⟨r, hr, hn⟩ := h
  have hsorted : (((loadEvents rows 0).filter fun r => n < r.seq).map (·.seq)).Pairwise (· ≤ ·) :=
    List.pairwise_map.2 ((pairwise_loadEvents rows 0).filter _)
  have hmem : ∀ m, m ∈ ((loadEvents rows 0).filter fun r => n < r.seq).map (·.seq) ↔ n < m ∧ ∃ r ∈ rows, r.seq = m := by
    intro m
    simp only [List.mem_map, List.mem_filter, mem_loadEvents, decide_eq_true_eq]
    constructor
    · rintro ⟨r, ⟨⟨hr, -⟩, hlt⟩, rfl⟩
      exact ⟨hlt, r, hr, rfl⟩
    · rintro ⟨hlt, r, hr, rfl⟩
      exact ⟨r, ⟨⟨hr, by omega⟩, hlt⟩, rfl⟩
  generalize ((loadEvents rows 0).filter fun r => n < r.seq).map (·.seq) = seqs at hsorted hmem
  have hne : seqs ≠ [] := List.ne_nil_of_mem ((hmem r.seq).2 ⟨hn, r, hr, rfl⟩)
  rw [List.getLast?_eq_some_getLast hne]
  obtain ⟨hlast, r', hr', hseq⟩ := (hmem _).1 (List.getLast_mem hne)
  have htail : tailOf rows < seqs.getLast hne + 1 := tailOf_lt (Nat.succ_pos _) fun r hr => by
    by_cases h : n < r.seq
    · have := hsorted.rel_getLast ((hmem r.seq).2 ⟨h, r, hr, rfl⟩)
      omega
    · omega
  have := le_tailOf hr'
  exact congrArg some (by omega)

/-- What a run with poison disabled does: it raises and leaves the database, or it saves the position of its driver. -/
structure RunSpec (b : Builder σ) (wipe : Bool) (db : Projected σ) (d : Driver)
    (r : Projected σ × Driver × Except PyError BuildReport) : Prop where
  bounded : ∀ n, d.appliedSeq ≤ n → tailOf db.events ≤ n → r.2.1.appliedSeq ≤ n
  outcome : r.1 = db ∧ (∃ e, r.2.2 = .error e) ∨
    (∃ t, r.1 = { db with
      stores := t
      checkpoints := upd db.checkpoints b.projectionName
        (some (((db.checkpoints b.projectionName).getD {}).withApplied r.2.1.appliedSeq)) }) ∧
    r.2.1.appliedSeq =
      if ∃ r ∈ db.events, applyFrom db b wipe < r.seq then tailOf db.events else d.appliedSeq

theorem runLocked_spec {b : Builder σ} {wipe : Bool} {db : Projected σ} {d : Driver} (hb : b.poisonEnabled = false)
    (hcp : ((db.checkpoints b.projectionName).getD {}).pauseReason = none) :
    RunSpec b wipe db d (runLocked b wipe false db d) := by
  unfold runLocked
  simp only [hcp, ne_eq, not_true_eq_false, if_false, Bool.not_false, and_true, Bool.false_eq_true, or_false,
    Bool.or_false, hb, Bool.and_true]
  generalize hd : ({ d with paused := false, pauseReason := none, eventsSeen := 0, skipped := 0, state := {} } : Driver) = d₀
  have hd₀ : d₀.appliedSeq = d.appliedSeq ∧ d₀.paused = false := by rw [← hd]; exact ⟨rfl, rfl⟩
  have hfrom : (if wipe = true then 0 else if wipe = true then 0 else ((db.checkpoints b.projectionName).getD {}).appliedSeq) =
      applyFrom db b wipe := by unfold applyFrom; split <;> rfl
  cases ht : openStore b wipe d₀ db.stores with
  | error e => exact ⟨fun n hn _ => hd₀.1 ▸ hn, .inl ⟨rfl, e, rfl⟩⟩
  | ok t =>
    simp only [hfrom]
    obtain ⟨hpaused, hbound, hpos⟩ := @replayLoop_applied _ b db.quarantined
      (applyFrom db b wipe) (loadEvents db.events 0) d₀ t
    have hbound : ∀ n, d.appliedSeq ≤ n → tailOf db.events ≤ n → _ ≤ n := fun n hn ht =>
      hbound n (hd₀.1 ▸ hn) fun r hr => (le_tailOf (mem_loadEvents.1 hr).1).trans ht
    split
    · rename_i d' e heq
      rw [heq] at hbound
      exact ⟨hbound, .inl ⟨rfl, e, rfl⟩⟩
    · rename_i d' t' heq
      rw [heq] at hbound hpos hpaused
      cases hf : b.finalize d' t' with
      | error e => exact ⟨hbound, .inl ⟨rfl, e, rfl⟩⟩
      | ok t'' =>
        refine ⟨hbound, .inr ⟨⟨t'', ?_⟩, ?_⟩⟩
        · have hp : d'.paused = false := hpaused.trans hd₀.2
          simp only [newCheckpoint, hp, Bool.false_eq_true, if_false]
        · have hp : d'.appliedSeq = _ := hpos t' rfl
          simp only [hp, hd₀.1]
          split
          · rename_i h
            rw [getLast?_past h, Option.getD_some]
          · rename_i h
            rw [List.filter_eq_nil_iff.2, List.map_nil, List.getLast?_nil, Option.getD_none]
            intro r hr
            rw [decide_eq_true_eq]
            exact fun hlt => h ⟨r, (mem_loadEvents.1 hr).1, hlt⟩

/-! ## Every sequence of runs -/

/-- Nothing has run yet: no checkpoint, and every driver at 0. -/
structure Fresh (w : Replays σ) : Prop where
  checkpoints : ∀ name, w.db.checkpoints name = none
  drivers : ∀ i, (w.drivers i).appliedSeq = 0

/-- No position is past the log, and no projection is paused. -/
structure InLog (w : Replays σ) : Prop where
  applied : ∀ name, w.db.applied name ≤ tailOf w.db.events
  drivers : ∀ i, (w.drivers i).appliedSeq ≤ tailOf w.db.events
  running : ∀ name, ((w.db.checkpoints name).getD {}).pauseReason = none

theorem tailOf_append_le (rows more : List EventRow) : tailOf rows ≤ tailOf (rows ++ more) := by
  simp only [tailOf, List.foldr_append]
  induction rows with
  | nil => exact Nat.zero_le _
  | cons r rows ih => simp only [List.foldr_cons]; omega

theorem InLog.step {w w' : Replays σ} {a : RunAct σ} (hi : InLog w) (ha : PoisonDisabled w a) (h : w.step a = some w') :
    InLog w' := by
  cases a with
  | append rows quarantined =>
    cases h
    exact ⟨fun name => (hi.applied name).trans (tailOf_append_le ..), fun i => (hi.drivers i).trans (tailOf_append_le ..),
      hi.running⟩
  | run i b wipe =>
    obtain ⟨hbound, hout⟩ := @runLocked_spec _ b wipe _ (w.drivers i) ha (hi.running b.projectionName)
    have hdriver := hbound _ (hi.drivers i) (Nat.le_refl _)
    have hdrivers : ∀ j, (upd w.drivers i (runLocked b wipe false w.db (w.drivers i)).2.1 j).appliedSeq ≤
        tailOf w.db.events := fun j => by
      by_cases hj : j = i
      · subst hj; rw [upd_self]; exact hdriver
      · rw [upd_ne _ _ hj]; exact hi.drivers j
    cases h
    rcases hout with ⟨hdb, -⟩ | ⟨⟨t, hdb⟩, -⟩
    · rw [hdb]
      exact ⟨hi.applied, hdrivers, hi.running⟩
    · rw [hdb]
      refine ⟨fun name => ?_, hdrivers, fun name => ?_⟩
      · by_cases hn : name = b.projectionName
        · subst hn; simpa only [Projected.applied, upd_self, Option.getD_some] using! hdriver
        · simpa only [Projected.applied, upd_ne _ _ hn] using hi.applied name
      · by_cases hn : name = b.projectionName
        · subst hn; simpa only [upd_self, Option.getD_some] using! hi.running b.projectionName
        · simpa only [upd_ne _ _ hn] using hi.running name

theorem inLog_run {w₀ w : Replays σ} (h0 : Fresh w₀) (hw : Run Replays.step PoisonDisabled w₀ w) : InLog w := by
  refine hw.inv InLog ⟨fun name => ?_, fun i => ?_, fun name => ?_⟩ fun _ _ _ hi ha h => hi.step ha h
  · rw [Projected.applied, h0.checkpoints]; exact Nat.zero_le _
  · rw [h0.drivers]; exact Nat.zero_le _
  · rw [h0.checkpoints]; rfl

/-- **A run saves the tail of the log it read exactly when it finds an event to
apply or its driver stands there already**, and then the position has not gone
back. -/
theorem applied_is_tail {w₀ w : Replays σ} (h0 : Fresh w₀) (hw : Run Replays.step PoisonDisabled w₀ w) {i : Nat}
    {b : Builder σ} {wipe : Bool} {report : BuildReport} (hb : b.poisonEnabled = false)
    (hrun : (runLocked b wipe false w.db (w.drivers i)).2.2 = .ok report) :
    ((runLocked b wipe false w.db (w.drivers i)).1.applied b.projectionName = tailOf w.db.events ↔
      ReachesTail w i b wipe) ∧
    (ReachesTail w i b wipe →
      w.db.applied b.projectionName ≤ (runLocked b wipe false w.db (w.drivers i)).1.applied b.projectionName) := by
  have hi := inLog_run h0 hw
  have hiff : (runLocked b wipe false w.db (w.drivers i)).1.applied b.projectionName = tailOf w.db.events ↔
      ReachesTail w i b wipe := by
    rcases (@runLocked_spec _ b wipe _ (w.drivers i) hb (hi.running b.projectionName)).outcome with
      ⟨-, e, he⟩ | ⟨⟨t, hdb⟩, hpos⟩
    · rw [hrun] at he; cases he
    · simp only [hdb, Projected.applied, upd_self, Option.getD_some, ProjectionCheckpoint.withApplied, hpos, ReachesTail]
      split
      · rename_i h; exact iff_of_true rfl (.inl h)
      · rename_i h; exact ⟨.inr, fun h' => h'.resolve_left h⟩
  exact ⟨hiff, fun h => hiff.2 h ▸ hi.applied b.projectionName⟩

/-- A builder that keeps nothing. -/
def idleBuilder : Builder Unit where
  projectionName := "current"
  poisonEnabled := false
  prepare := fun _ t => .ok t
  wipe := fun _ t => .ok t
  apply := fun _ _ t => .ok t
  onSkip := fun _ _ t => .ok t
  onPause := fun _ _ t => .ok t
  finalize := fun _ t => .ok t

/-- One event in the log, nothing run. -/
def oneEvent : Replays Unit where
  db := {
    events := [{ seq := 1, eventType := .JobRunAudit, eventVersion := 1, schemaUrl := "", payload := [], authority := none
                 confidence := none, generatedBy := [], correlationId := none, causationId := none, createdBy := none
                 idempotencyKey := none }]
    stores := () }

theorem applied_is_tail_first :
    (runLocked idleBuilder false false oneEvent.db (oneEvent.drivers 0)).1.applied "current" = 1 :=
  (@applied_is_tail _ oneEvent oneEvent ⟨fun _ => rfl, fun _ => rfl⟩ .refl 0 idleBuilder false _ rfl rfl).1.2 (.inl (by decide))

/-- A second run on a fresh driver finds no new event and saves 0 over 1. -/
theorem fresh_driver_goes_back :
    ∃ w : Replays Unit, Run Replays.step PoisonDisabled oneEvent w ∧ w.db.applied "current" = 1 ∧
      tailOf w.db.events = 1 ∧ ∃ report, (runLocked idleBuilder false false w.db (w.drivers 1)).2.2 = .ok report ∧
        (runLocked idleBuilder false false w.db (w.drivers 1)).1.applied "current" = 0 :=
  ⟨_, .step (a := .run 0 idleBuilder false) .refl rfl rfl, rfl, rfl, _, rfl, rfl⟩

end Umd.Projections
