import Umd.Projections.EdgeReplay
import Umd.Projections.Parts
import Umd.Projections.SearchRuns
/-!
# Search over the edges

Runs of the edge builder and of the search builder beside appends, with any
drivers. A search run reads the log when it begins and the edges when it ends;
in between other transactions commit. When it publishes a position, its edge
documents are those of the log up to that position or later, exactly if the
edges have a checkpoint by then (`published_over_edges_iff`): without one the
gate lets the run through.
-/

namespace Umd.Projections

open Umd.Lib Umd.Events Umd.Reducer Umd.Ledger

/-! ## The system -/

/-- The edge store among the stores. -/
def edgesPart : Part Stores EdgeTable where
  get := (·.edges)
  put := fun edges t => { t with edges := edges }
  get_put := fun _ _ => rfl
  put_get := Stores.eta
  put_put := fun _ _ _ => rfl

/-- The default schema of `SearchProjectionBuilder`. -/
def publicSchema : String := "public"

/-- A search run that has replayed the log and not committed yet. -/
structure Reading where
  driver : Nat
  wipe : Bool
  checkpoint : ProjectionCheckpoint
  docs : DocTable

/-- The ledger, the stores with their checkpoints, the driver objects, and the search run that holds the advisory lock. -/
structure SearchWorld where
  ledger : Db := {}
  db : Projected Stores := { stores := {} }
  drivers : Nat → Driver := fun _ => {}
  reading : Option Reading := none

inductive SearchAct where
  | append (call : Call)
  | quarantine (refs : List String)
  | edges (driver : Nat) (wipe forceResume : Bool)
  | searchBegin (driver : Nat) (wipe forceResume : Bool)
  | searchEnd

namespace SearchWorld

variable (listed : CurrentReducedState → List Key)

/-- The end of the search run, over the edges as they are now. -/
def finish (w : SearchWorld) (r : Reading) : Projected Stores × Except PyError BuildReport :=
  commitPhase (searchBuilder listed publicSchema (w.db.checkpoints edgeProjection)) r.wipe r.checkpoint
    (w.db.stores.setDocs publicSchema r.docs) w.db (w.drivers r.driver)

/-- The begin of a search run. -/
def start (w : SearchWorld) (i : Nat) (wipe forceResume : Bool) : SearchWorld :=
  let r := replayPhase (searchBuilder listed publicSchema none) wipe forceResume w.db (w.drivers i)
  { w with
    drivers := upd w.drivers i r.1
    reading := match r.2 with
      | .ok (some (cp, t)) => some ⟨i, wipe, cp, t.docs publicSchema⟩
      | _ => none }

/-- A driver runs one builder at a time, and one search run is on at a time. -/
def step (w : SearchWorld) : SearchAct → Option SearchWorld
  | .append call =>
    let ledger := (append w.ledger call).1
    some { w with ledger := ledger, db := { w.db with events := ledger.events } }
  | .quarantine refs => some { w with db := { w.db with quarantined := refs } }
  | .edges i wipe forceResume =>
    if w.reading.any (·.driver = i) then none
    else
      let r := runLocked (edgeBuilder.over edgesPart) wipe forceResume w.db (w.drivers i)
      some { w with db := r.1, drivers := upd w.drivers i r.2.1 }
  | .searchBegin i wipe forceResume => if w.reading.isSome then none else some (w.start listed i wipe forceResume)
  | .searchEnd => (w.reading.map (w.finish listed)).map fun out => { w with db := out.1, reading := none }

/-- The ledger and the edges alone. -/
def edgeWorld (w : SearchWorld) : EdgeWorld where
  ledger := w.ledger
  replays := { db := w.db.part edgesPart, drivers := w.drivers }

end SearchWorld

/-! ## A search run with nothing between -/

theorem replayLoop_edgeCp {listed : CurrentReducedState → List Key} {schema : String} {edgeCp edgeCp' : Option ProjectionCheckpoint}
    {quarantined : List String} {poison : Bool} {n : Nat} {rows : List EventRow} : ∀ {d : Driver} {t : Stores},
    replayLoop (searchBuilder listed schema edgeCp) quarantined poison n rows d t =
      replayLoop (searchBuilder listed schema edgeCp') quarantined poison n rows d t := by
  induction rows with
  | nil => exact rfl
  | cons row rows ih =>
    intro d t
    rw [replayLoop, replayLoop]
    cases d.fold (upcast row) with
    | error e => rfl
    | ok d =>
      dsimp only
      split
      · exact ih
      · split
        · rfl
        · split
          · exact ih
          · exact ih

/-- The edge checkpoint is not read before the end of a run. -/
theorem replayPhase_edgeCp {listed : CurrentReducedState → List Key} {schema : String} {edgeCp edgeCp' : Option ProjectionCheckpoint}
    {wipe forceResume : Bool} {db : Projected Stores} {d : Driver} :
    replayPhase (searchBuilder listed schema edgeCp) wipe forceResume db d =
      replayPhase (searchBuilder listed schema edgeCp') wipe forceResume db d := by
  unfold replayPhase
  simp only [@replayLoop_edgeCp listed schema edgeCp edgeCp']
  rfl

/-- **A search run that ends as it began is a run of the driver.** -/
theorem start_finish (listed : CurrentReducedState → List Key) (w : SearchWorld) (i : Nat) (wipe forceResume : Bool) :
    let run := runLocked (searchBuilder listed publicSchema (w.db.checkpoints edgeProjection)) wipe forceResume w.db (w.drivers i)
    (w.start listed i wipe forceResume).drivers i = run.2.1 ∧
    match (w.start listed i wipe forceResume).reading with
    | none => run.1 = w.db
    | some r => (w.start listed i wipe forceResume).finish listed r = (run.1, run.2.2) := by
  have hspec := (@replayPhase_search listed publicSchema none wipe forceResume w.db (w.drivers i)).2
  have hcp := @replayPhase_edgeCp listed publicSchema (w.db.checkpoints edgeProjection) none wipe forceResume w.db (w.drivers i)
  dsimp only
  rw [runLocked_phases, hcp]
  unfold SearchWorld.start
  generalize replayPhase (searchBuilder listed publicSchema none) wipe forceResume w.db (w.drivers i) = r at hspec
  obtain ⟨d, e | (_ | ⟨cp, t⟩)⟩ := r
  · exact ⟨upd_self .., rfl⟩
  · exact ⟨upd_self .., rfl⟩
  · refine ⟨upd_self .., ?_⟩
    have ht := (hspec cp t rfl).stores
    have hself : w.db.stores.setDocs publicSchema (t.docs publicSchema) = t := by
      rw [ht, Stores.setDocs_docs]
    simp only [SearchWorld.finish, upd_self, hself]

/-! ## What holds between the steps -/

/-- The edges are built of the log, and no position is past it. -/
structure SearchInv (w : SearchWorld) : Prop where
  edges : EdgesBuilt w.edgeWorld
  resumed : ((w.db.checkpoints edgeProjection).getD {}).resumed = (w.db.checkpoints edgeProjection).getD {}
  applied : w.db.applied searchProjection ≤ tailOf w.ledger.events

theorem SearchInv.init : SearchInv {} := ⟨.init, rfl, Nat.zero_le _⟩

/-- With poison disabled and nothing paused, a forced resume is a wiping run. -/
theorem runLocked_forced {σ : Type} {b : Builder σ} (wipe : Bool) {db : Projected σ} (d : Driver) (hb : b.poisonEnabled = false)
    (hcp : ((db.checkpoints b.projectionName).getD {}).resumed = (db.checkpoints b.projectionName).getD {}) :
    (runLocked b wipe true db d).1 = (runLocked b true false db d).1 ∧
    (runLocked b wipe true db d).2.1 = (runLocked b true false db d).2.1 := by
  have hnone : ((db.checkpoints b.projectionName).getD {}).pauseReason = none := by rw [← hcp]; rfl
  unfold runLocked
  simp only [hnone, hb, hcp, ne_eq, not_true_eq_false, false_and, if_false, if_true, or_true, true_or, Bool.or_true, Bool.true_or,
    Bool.false_and, Bool.false_eq_true]
  cases openStore b true _ db.stores with
  | error e => exact ⟨rfl, rfl⟩
  | ok t =>
    dsimp only
    obtain ⟨d', e | t'⟩ := replayLoop b db.quarantined false 0 (loadEvents db.events 0) _ t
    · exact ⟨rfl, rfl⟩
    · dsimp only
      cases b.finalize d' t' <;> exact ⟨rfl, rfl⟩

theorem edge_ne_search : edgeProjection ≠ searchProjection := by decide

/-- A step that leaves the ledger, the edges and their checkpoint, with drivers that stand in the log. -/
theorem SearchInv.kept {w w' : SearchWorld} (h : SearchInv w) (hledger : w'.ledger = w.ledger)
    (hevents : w'.db.events = w.db.events) (hedges : w'.db.stores.edges = w.db.stores.edges)
    (hcp : w'.db.checkpoints edgeProjection = w.db.checkpoints edgeProjection)
    (hdrivers : ∀ i, (w'.drivers i).appliedSeq ≤ tailOf w.ledger.events)
    (happ : w'.db.applied searchProjection ≤ tailOf w.ledger.events) : SearchInv w' := by
  have happE : w'.edgeWorld.replays.db.applied edgeProjection = w.edgeWorld.replays.db.applied edgeProjection := by
    simp only [Projected.applied]
    exact congrArg (fun o : Option ProjectionCheckpoint => (o.getD {}).appliedSeq) hcp
  refine ⟨⟨?_, ?_, ?_, ?_, ?_, ?_⟩, by rw [hcp]; exact h.resumed, by rw [hledger]; exact happ⟩
  · change Stored w'.ledger
    rw [hledger]
    exact h.edges.stored
  · change w'.db.events = w'.ledger.events
    rw [hledger, hevents]
    exact h.edges.published
  · change ((w'.db.checkpoints edgeProjection).getD {}).pauseReason = none
    rw [hcp]
    exact h.edges.running
  · change ∀ i, (w'.drivers i).appliedSeq ≤ tailOf w'.ledger.events
    rw [hledger]
    exact hdrivers
  · rw [happE]
    change _ ≤ tailOf w'.ledger.events
    rw [hledger]
    exact h.edges.applied
  · obtain ⟨pre, post, hev, ht, hpost⟩ := h.edges.table
    refine ⟨pre, post, ?_, ?_, ?_⟩
    · change w'.ledger.events = _
      rw [hledger]
      exact hev
    · change w'.db.stores.edges = _
      rw [hedges]
      exact ht
    · rw [happE]
      exact hpost

section
variable {listed : CurrentReducedState → List Key}

theorem SearchInv.drivers {w : SearchWorld} (h : SearchInv w) (i : Nat) : (w.drivers i).appliedSeq ≤ tailOf w.ledger.events :=
  h.edges.drivers i

/-- The begin of a search run moves its driver alone. -/
theorem SearchInv.start {w : SearchWorld} (h : SearchInv w) (i : Nat) (wipe forceResume : Bool) :
    SearchInv (w.start listed i wipe forceResume) := by
  refine h.kept rfl rfl rfl rfl (fun j => ?_) h.applied
  have hpub : w.db.events = w.ledger.events := h.edges.published
  have hb := (@replayPhase_search listed publicSchema none wipe forceResume w.db (w.drivers i)).1 _ (h.drivers i) h.applied
    (by rw [hpub])
  by_cases hj : j = i
  · subst hj
    simpa only [SearchWorld.start, upd_self] using hb
  · simp only [SearchWorld.start, upd_ne _ _ hj]
    exact h.drivers j

theorem newCheckpoint_applied (cp : ProjectionCheckpoint) (d : Driver) : (newCheckpoint cp d).appliedSeq = d.appliedSeq := by
  unfold newCheckpoint
  dsimp only
  split <;> rfl

/-- The end of a search run leaves the stores, or it replaces the documents and saves the position of its driver. -/
theorem finish_cases (w : SearchWorld) (r : Reading) :
    (∃ e, w.finish listed r = (w.db, .error e)) ∨
    ∃ docs report, finalizeSearch listed (w.db.checkpoints edgeProjection) (w.drivers r.driver) w.db.stores.edges r.docs = .ok docs ∧
      w.finish listed r = ({ w.db with
        stores := w.db.stores.setDocs publicSchema docs
        checkpoints := upd w.db.checkpoints searchProjection (some (newCheckpoint r.checkpoint (w.drivers r.driver))) }, .ok report) := by
  have hfin : (searchBuilder listed publicSchema (w.db.checkpoints edgeProjection)).finalize (w.drivers r.driver)
      (w.db.stores.setDocs publicSchema r.docs) =
      (finalizeSearch listed (w.db.checkpoints edgeProjection) (w.drivers r.driver) w.db.stores.edges r.docs).map
        (w.db.stores.setDocs publicSchema) := by
    change (finalizeSearch _ _ _ _ ((w.db.stores.setDocs publicSchema r.docs).docs publicSchema)).map
      ((w.db.stores.setDocs publicSchema r.docs).setDocs publicSchema) = _
    rw [Stores.setDocs_docs]
    refine congrArg (Except.map · _) (funext fun docs => ?_)
    exact w.db.stores.setDocs_twice publicSchema r.docs docs
  unfold SearchWorld.finish commitPhase
  rw [hfin]
  cases hf : finalizeSearch listed (w.db.checkpoints edgeProjection) (w.drivers r.driver) w.db.stores.edges r.docs with
  | error e => exact .inl ⟨e, rfl⟩
  | ok docs => exact .inr ⟨docs, _, rfl, rfl⟩

theorem SearchInv.finish {w : SearchWorld} (h : SearchInv w) (r : Reading) :
    SearchInv { w with db := (w.finish listed r).1, reading := none } := by
  rcases @finish_cases listed w r with ⟨e, he⟩ | ⟨docs, report, -, he⟩ <;> rw [he]
  · exact h.kept rfl rfl rfl rfl h.drivers h.applied
  · refine h.kept rfl rfl rfl (upd_ne _ (some (newCheckpoint r.checkpoint (w.drivers r.driver))) edge_ne_search) h.drivers ?_
    simp only [Projected.applied, upd_self, Option.getD_some, newCheckpoint_applied]
    exact h.drivers r.driver

/-- A run of the edge builder. -/
theorem SearchInv.edgeRun {w : SearchWorld} (h : SearchInv w) (i : Nat) (wipe forceResume : Bool) :
    SearchInv { w with
      db := (runLocked (edgeBuilder.over edgesPart) wipe forceResume w.db (w.drivers i)).1
      drivers := upd w.drivers i (runLocked (edgeBuilder.over edgesPart) wipe forceResume w.db (w.drivers i)).2.1 } := by
  have hname : edgeBuilder.projectionName = edgeProjection := rfl
  -- a forced resume is a wiping run
  have hrun : (runLocked edgeBuilder wipe forceResume (w.db.part edgesPart) (w.drivers i)).1 =
        (runLocked edgeBuilder (wipe || forceResume) false (w.db.part edgesPart) (w.drivers i)).1 ∧
      (runLocked edgeBuilder wipe forceResume (w.db.part edgesPart) (w.drivers i)).2.1 =
        (runLocked edgeBuilder (wipe || forceResume) false (w.db.part edgesPart) (w.drivers i)).2.1 := by
    cases forceResume with
    | false => rw [Bool.or_false]; exact ⟨rfl, rfl⟩
    | true => rw [Bool.or_true]; exact runLocked_forced wipe _ rfl h.resumed
  rw [runLocked_over]
  dsimp only
  rw [hrun.1, hrun.2]
  have hbuilt := h.edges.step (a := .run i (wipe || forceResume)) rfl
  have hspec := (@runLocked_spec _ edgeBuilder (wipe || forceResume) (w.db.part edgesPart) (w.drivers i) rfl h.edges.running).outcome
  rw [hname] at hspec
  refine ⟨hbuilt, ?_, ?_⟩
  · change (((runLocked edgeBuilder (wipe || forceResume) false (w.db.part edgesPart) (w.drivers i)).1.checkpoints
      edgeProjection).getD {}).resumed = ((runLocked edgeBuilder (wipe || forceResume) false (w.db.part edgesPart)
      (w.drivers i)).1.checkpoints edgeProjection).getD {}
    rcases hspec with ⟨hdb, -⟩ | ⟨⟨t, hdb⟩, -⟩
    · rw [hdb]
      exact h.resumed
    · rw [hdb]
      simp only [upd_self, Option.getD_some]
      exact congrArg (ProjectionCheckpoint.withApplied · _) h.resumed
  · change ((runLocked edgeBuilder (wipe || forceResume) false (w.db.part edgesPart) (w.drivers i)).1.applied searchProjection) ≤ _
    rcases hspec with ⟨hdb, -⟩ | ⟨⟨t, hdb⟩, -⟩
    · rw [hdb]
      exact h.applied
    · rw [hdb]
      simp only [Projected.applied, upd_ne _ _ edge_ne_search.symm]
      exact h.applied

theorem SearchInv.append {w : SearchWorld} (h : SearchInv w) (call : Call) :
    SearchInv { w with ledger := (Ledger.append w.ledger call).1
                       db := { w.db with events := (Ledger.append w.ledger call).1.events } } := by
  refine ⟨h.edges.append call, h.resumed, h.applied.trans ?_⟩
  obtain ⟨new, hev, -, -, -⟩ := append_rows w.ledger call
  change _ ≤ tailOf (Ledger.append w.ledger call).1.events
  rw [hev]
  exact tailOf_append_le ..

theorem SearchInv.step {w w' : SearchWorld} {a : SearchAct} (h : SearchInv w) (hs : w.step listed a = some w') : SearchInv w' := by
  cases a with
  | append call => cases hs; exact h.append call
  | quarantine refs => cases hs; exact h.kept rfl rfl rfl rfl h.drivers h.applied
  | edges i wipe forceResume =>
    simp only [SearchWorld.step] at hs
    split at hs
    · cases hs
    · cases hs
      exact h.edgeRun i wipe forceResume
  | searchBegin i wipe forceResume =>
    simp only [SearchWorld.step] at hs
    split at hs
    · cases hs
    · cases hs
      exact h.start i wipe forceResume
  | searchEnd =>
    obtain ⟨out, hout, rfl⟩ := Option.map_eq_some_iff.1 hs
    obtain ⟨r, -, rfl⟩ := Option.map_eq_some_iff.1 hout
    exact h.finish r

/-! ## What a search run publishes -/

/-- The edge documents are those of the active edges of the log up to a seq at or past `n`, read of a store that was
built. -/
structure OverEdges (rows : List EventRow) (db : Projected Stores) (n : Nat) : Prop where
  docs : ∃ m, n ≤ m ∧
    ((db.stores.docs publicSchema).filter fun doc => isEdgeRef doc.ref) = edgeDocs (edgesOf (rows.filter fun r => r.seq ≤ m))
  built : (db.checkpoints edgeProjection).isSome

/-- The rows up to a seq that splits the log. -/
theorem filter_upTo {pre post : List EventRow} {m : Nat} (hpre : ∀ r ∈ pre, r.seq ≤ m) (hpost : ∀ r ∈ post, m < r.seq) :
    (pre ++ post).filter (fun r => r.seq ≤ m) = pre := by
  rw [List.filter_append, List.filter_eq_self.2 (by simpa using hpre), List.filter_eq_nil_iff.2, List.append_nil]
  intro r hr
  have := hpost r hr
  simpa using this

/-- A position the edge checkpoint has reached is one the edges have been built to. -/
theorem SearchInv.reached {w : SearchWorld} (h : SearchInv w) {n : Nat} (hn : n ≤ w.db.applied edgeProjection) :
    ∃ m, n ≤ m ∧ w.db.stores.edges = edgesOf (w.ledger.events.filter fun r => r.seq ≤ m) := by
  obtain ⟨pre, post, hev, ht, hpost⟩ := h.edges.table
  have hev' : w.ledger.events = pre ++ post := hev
  have hord := h.edges.stored.ordered
  change (w.ledger.events.map (·.seq)).Pairwise (· < ·) at hord
  rw [hev', List.map_append] at hord
  refine ⟨max n (tailOf pre), Nat.le_max_left .., ?_⟩
  rw [hev', filter_upTo (fun r hr => (le_tailOf hr).trans (Nat.le_max_right ..)) fun r hr => ?_]
  · exact ht
  · have h1 : w.db.applied edgeProjection < r.seq := hpost r hr
    have h2 : tailOf pre < r.seq := tailOf_lt (Nat.lt_of_le_of_lt (Nat.zero_le _) h1) fun r' hr' =>
      (List.pairwise_append.1 hord).2.2 _ (List.mem_map_of_mem hr') _ (List.mem_map_of_mem hr)
    omega

/-- Any appends, runs of both builders and changes of the quarantine: a search run that publishes a position leaves the
edge documents of the log up to that position or later, from a store that was built, if and only if the edges have a
checkpoint when it ends. -/
theorem published_over_edges_iff {w : SearchWorld} (hrun : Run (SearchWorld.step listed) Any {} w) {db : Projected Stores}
    {report : BuildReport} (hend : w.reading.map (w.finish listed) = some (db, .ok report))
    (hpub : (db.checkpoints searchProjection).any (·.pauseReason = none)) :
    OverEdges w.ledger.events db (db.applied searchProjection) ↔ (w.db.checkpoints edgeProjection).isSome := by
  have hinv : SearchInv w := hrun.inv SearchInv .init fun _ _ _ hi _ hs => hi.step hs
  obtain ⟨r, -, hfinish⟩ := Option.map_eq_some_iff.1 hend
  rcases @finish_cases listed w r with ⟨e, he⟩ | ⟨docs, report', hfin, he⟩
  · rw [he] at hfinish
    cases hfinish
  · rw [he] at hfinish
    cases hfinish
    have hcp : upd w.db.checkpoints searchProjection (some (newCheckpoint r.checkpoint (w.drivers r.driver))) edgeProjection =
        w.db.checkpoints edgeProjection := upd_ne _ _ edge_ne_search
    constructor
    · exact fun h => hcp ▸ h.built
    · intro hsome
      simp only [upd_self, Option.any_some, decide_eq_true_eq] at hpub
      have hpaused : (w.drivers r.driver).paused = false := by
        cases hp : (w.drivers r.driver).paused with
        | false => rfl
        | true => simp [newCheckpoint, hp, ProjectionCheckpoint.paused] at hpub
      have hids : w.db.stores.edges.ids.Nodup := by
        obtain ⟨pre, post, -, ht, -⟩ := hinv.edges.table
        change w.db.stores.edges = _ at ht
        rw [ht]
        exact onAll_nodup nodup_nil
      obtain ⟨htrail, hedges, -⟩ := finalizeSearch_edges hids hfin
      -- the gate: the edge checkpoint has reached the position
      have hle : (w.drivers r.driver).appliedSeq ≤ w.db.applied edgeProjection := by
        obtain ⟨cp, hcp⟩ := Option.isSome_iff_exists.1 hsome
        simp only [edgesTrail, hpaused, hcp, Bool.not_false, Bool.true_and, Option.any_some, decide_eq_false_iff_not,
          Nat.not_lt] at htrail
        simpa only [Projected.applied, hcp, Option.getD_some] using htrail
      obtain ⟨m, hm, hbuilt⟩ := hinv.reached hle
      refine ⟨⟨m, ?_, ?_⟩, by rw [← hcp] at hsome; exact hsome⟩
      · simpa only [Projected.applied, upd_self, Option.getD_some, newCheckpoint_applied] using hm
      · rw [← hbuilt, ← hedges, Stores.setDocs_docs]

end

/-- An assertion is appended. -/
def oneAssertion : SearchAct :=
  .append (one .SemanticAsserted [("predicate_code", .str "P"), ("subject_ref", .str "e"), ("scope", .str "GLOBAL")])

/-- The one key of the state folded of it. -/
def oneKey (s : CurrentReducedState) : List Key := [("e", "P")].filter fun k => (s.rows k).isSome

/-- The edges are built, and then the search. -/
theorem published_over_edges_one : ∃ (w : SearchWorld) (db : Projected Stores) (report : BuildReport),
    w.reading.map (w.finish oneKey) = some (db, .ok report) ∧ OverEdges w.ledger.events db (db.applied searchProjection) := by
  refine ⟨_, _, _, rfl, (@published_over_edges_iff oneKey _ (.step (a := .searchBegin 1 true false)
    (.step (a := .edges 0 true false) (.step (a := oneAssertion) .refl trivial rfl) trivial rfl) trivial rfl) _ _ rfl rfl).2 rfl⟩

/-- The search is built of the assertion while the edges never were. -/
def searchWithoutEdges : SearchWorld :=
  let asserted := append {} (one .SemanticAsserted
    [("predicate_code", .str "P"), ("subject_ref", .str "e"), ("scope", .str "GLOBAL")])
  SearchWorld.start oneKey { ledger := asserted.1, db := { events := asserted.1.events, stores := {} } } 0 true false

/-- A position is published, and the edge of the assertion has no document. -/
theorem published_without_edges : ¬ ∀ (listed : CurrentReducedState → List Key) (w : SearchWorld) (db : Projected Stores)
    (report : BuildReport), Run (SearchWorld.step listed) Any {} w → w.reading.map (w.finish listed) = some (db, .ok report) →
    (db.checkpoints searchProjection).any (·.pauseReason = none) →
    OverEdges w.ledger.events db (db.applied searchProjection) := by
  intro h
  have hrun : Run (SearchWorld.step oneKey) Any {} searchWithoutEdges :=
    .step (a := .searchBegin 0 true false) (.step (a := oneAssertion) .refl trivial rfl) trivial rfl
  obtain ⟨m, hm, hdocs⟩ := (h oneKey searchWithoutEdges _ _ hrun rfl rfl).docs
  have hall : searchWithoutEdges.ledger.events.filter (fun r => r.seq ≤ m) = searchWithoutEdges.ledger.events := by
    rw [List.filter_eq_self]
    intro r hr
    have hseq : ∀ r ∈ searchWithoutEdges.ledger.events, r.seq = 1 := by decide
    have hone : 1 ≤ m := hm
    simpa [hseq r hr] using hone
  rw [hall] at hdocs
  exact absurd (congrArg List.length hdocs) (by decide)

end Umd.Projections
