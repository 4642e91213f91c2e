import Umd.Projections.EdgeFold
import Umd.Projections.Search
/-!
# Runs of the search builder

What a run applies is a part of the log: the events past its checkpoint up to
the first that pauses it, without those it skips (`taken`). Only the folds of
the log and the end of a run can raise.
-/

namespace Umd.Projections

open Umd.Lib Umd.Events Umd.Reducer Umd.Ledger

/-! ## What a run applies -/

/-- The event pauses a run that may pause. -/
def pausesAt (poison : Bool) (n : Nat) (row : EventRow) : Bool := poison && (n < row.seq && isAuthorityPause (upcast row))

/-- The run applies the event, if it gets there. -/
def takes (quarantined : List String) (poison : Bool) (n : Nat) (row : EventRow) : Bool :=
  n < row.seq && !(poison && referencesQuarantine (upcast row) quarantined)

/-- The events a run applies. -/
def taken (quarantined : List String) (poison : Bool) (n : Nat) (rows : List EventRow) : List EventRow :=
  (rows.takeWhile fun row => !pausesAt poison n row).filter (takes quarantined poison n)

/-- Events applied to the documents of a schema. -/
def applyAll (rows : List EventRow) (t : DocTable) : DocTable := rows.foldl (fun t row => applySearch (upcast row) t) t

theorem Driver.fold_policy {d d' : Driver} {ev : SemanticEvent} (h : d.fold ev = .ok d') : d'.pausePolicy = d.pausePolicy := by
  unfold Driver.fold at h
  split at h
  · cases hr : reduce d.state ev with
    | error e => rw [hr] at h; cases h
    | ok state => rw [hr] at h; cases h; rfl
  · cases h; rfl

/-- The canonical fold of one event, as a fold of the log. -/
theorem Driver.fold_state {d d' : Driver} {row : EventRow} (h : d.fold (upcast row) = .ok d') :
    reduceAll d.state (logOf [row]) = .ok d'.state := by
  unfold Driver.fold at h
  rw [logOf_one]
  split at h
  · rename_i hsem
    rw [if_pos hsem]
    cases hr : reduce d.state (upcast row) with
    | error e => rw [hr] at h; cases h
    | ok state =>
      rw [hr] at h
      cases h
      simp [reduceAll, bind, Except.bind, hr]
  · rename_i hsem
    rw [if_neg hsem]
    cases h
    rfl

theorem classify_pause {ev : SemanticEvent} {q : List String} : (classify ev q).decision = .pause ↔ isAuthorityPause ev = true := by
  unfold classify
  split
  · simp [*]
  · split <;> simp [*]

theorem classify_skip {ev : SemanticEvent} {q : List String} (h : isAuthorityPause ev = false) :
    (classify ev q).decision = .skip ↔ referencesQuarantine ev q = true := by
  unfold classify
  rw [if_neg (by rw [h]; exact Bool.false_ne_true)]
  split <;> simp [*]

section
variable {listed : CurrentReducedState → List Key} {schema : String} {edgeCp : Option ProjectionCheckpoint}

theorem Stores.setDocs_self (t : Stores) (schema : String) : t.setDocs schema (t.docs schema) = t := by
  unfold setDocs
  rw [upd_same]

theorem Stores.setDocs_twice (t : Stores) (schema : String) (docs docs' : DocTable) :
    (t.setDocs schema docs).setDocs schema docs' = t.setDocs schema docs' := by
  simp [setDocs, upd_twice]

@[simp] theorem Stores.setDocs_docs (t : Stores) (schema : String) (docs : DocTable) : (t.setDocs schema docs).docs schema = docs :=
  upd_self ..

@[simp] theorem Stores.setDocs_edges (t : Stores) (schema : String) (docs : DocTable) : (t.setDocs schema docs).edges = t.edges := rfl

/-- What the loop of a search run leaves, unless a fold raises. -/
structure Searched (schema : String) (quarantined : List String) (poison : Bool) (n : Nat) (rows : List EventRow) (d : Driver)
    (t : Stores) (r : Driver × Except PyError Stores) : Prop where
  bounded : ∀ m, d.appliedSeq ≤ m → (∀ row ∈ rows, row.seq ≤ m) → r.1.appliedSeq ≤ m
  stores : ∀ t', r.2 = .ok t' → t' = t.setDocs schema (applyAll (taken quarantined poison n rows) (t.docs schema))
  paused : ∀ t', r.2 = .ok t' → r.1.paused = (d.paused || rows.any (pausesAt poison n))
  state : ∀ t', r.2 = .ok t' → rows.any (pausesAt poison n) = false → reduceAll d.state (logOf rows) = .ok r.1.state
  applied : ∀ t', r.2 = .ok t' → rows.any (pausesAt poison n) = false →
    r.1.appliedSeq = (((rows.filter fun row => n < row.seq).map (·.seq)).getLast?).getD d.appliedSeq

theorem applyAll_append (rows rows' : List EventRow) (t : DocTable) : applyAll (rows ++ rows') t = applyAll rows' (applyAll rows t) :=
  List.foldl_append

/-- The loop of a search run. -/
theorem searchLoop {quarantined : List String} {poison : Bool} {n : Nat} {rows : List EventRow} : ∀ {d : Driver} {t : Stores},
    Searched schema quarantined (d.pausePolicy && poison) n rows d t
      (replayLoop (searchBuilder listed schema edgeCp) quarantined poison n rows d t) := by
  induction rows with
  | nil =>
    intro d t
    refine ⟨fun _ h _ => h, fun t' h => ?_, fun _ _ => by simp [replayLoop], fun _ _ _ => rfl, fun _ _ _ => rfl⟩
    cases h
    exact (t.setDocs_self schema).symm
  | cons row rows ih =>
    intro d t
    rw [replayLoop]
    cases hf : d.fold (upcast row) with
    | error e => exact ⟨fun _ h _ => h, by simp, by simp, by simp, by simp⟩
    | ok d₁ =>
      obtain ⟨happ, hpaused⟩ := fold_applied hf
      have hpol := Driver.fold_policy hf
      have hfold := Driver.fold_state hf
      have hseq : (upcast row).seq.getD 0 = row.seq := rfl
      have hlog : logOf (row :: rows) = logOf [row] ++ logOf rows := by rw [← logOf_append]; rfl
      simp only [hseq]
      by_cases hle : row.seq ≤ n
      · -- applied in a prior run
        rw [if_pos hle]
        have hno : pausesAt (d.pausePolicy && poison) n row = false := by simp [pausesAt, Nat.not_lt.2 hle]
        have hnt : takes quarantined (d.pausePolicy && poison) n row = false := by simp [takes, Nat.not_lt.2 hle]
        have h := @ih d₁ t
        rw [hpol] at h
        refine ⟨fun m hm hr => h.bounded m (happ ▸ hm) fun r hr' => hr r (List.mem_cons_of_mem _ hr'), fun t' ht => ?_,
          fun t' ht => ?_, fun t' ht hp => ?_, fun t' ht hp => ?_⟩
        · rw [h.stores t' ht, taken, taken, List.takeWhile_cons, hno]
          simp [hnt]
        · rw [h.paused t' ht, hpaused, List.any_cons, hno, Bool.false_or]
        · rw [List.any_cons, hno, Bool.false_or] at hp
          rw [hlog, reduceAll_append, hfold]
          exact h.state t' ht hp
        · rw [List.any_cons, hno, Bool.false_or] at hp
          rw [h.applied t' ht hp, happ, List.filter_cons_of_neg (by simpa using hle)]
      · rw [if_neg hle]
        have hlt : n < row.seq := Nat.lt_of_not_le hle
        simp only [classify_pause, hpol]
        by_cases hpause : isAuthorityPause (upcast row) = true ∧ d.pausePolicy = true ∧ poison = true
        · rw [if_pos hpause]
          have hyes : pausesAt (d.pausePolicy && poison) n row = true := by simp [pausesAt, hpause, hlt]
          refine ⟨fun m _ hr => hr row (by simp), fun t' ht => ?_, fun t' _ => by simp [hyes], fun t' _ hp => ?_, fun t' _ hp => ?_⟩
          · cases ht
            rw [taken, List.takeWhile_cons, hyes]
            exact (t.setDocs_self schema).symm
          · rw [List.any_cons, hyes] at hp
            cases hp
          · rw [List.any_cons, hyes] at hp
            cases hp
        · rw [if_neg hpause]
          have hno : pausesAt (d.pausePolicy && poison) n row = false := by
            simp only [pausesAt, hlt, decide_true, Bool.true_and, Bool.and_eq_false_iff]
            by_cases h1 : isAuthorityPause (upcast row) = true
            · by_cases h2 : d.pausePolicy = true
              · exact .inl (.inr (by simpa [h1, h2] using hpause))
              · exact .inl (.inl (by simpa using h2))
            · exact .inr (by simpa using h1)
          -- what is left is the same whether the event is skipped or applied
          have hrest : ∀ (d₂ : Driver) (t₂ : Stores), d₂.pausePolicy = d.pausePolicy → d₂.appliedSeq = row.seq →
              d₂.paused = d.paused → d₂.state = d₁.state →
              (t₂.docs schema = applyAll (if takes quarantined (d.pausePolicy && poison) n row then [row] else []) (t.docs schema)) →
              (∀ docs, t₂.setDocs schema docs = t.setDocs schema docs) →
              Searched schema quarantined (d.pausePolicy && poison) n (row :: rows) d t
                (replayLoop (searchBuilder listed schema edgeCp) quarantined poison n rows d₂ t₂) := by
            intro d₂ t₂ hpol₂ happ₂ hpaused₂ hstate₂ hdocs hset
            have h := @ih d₂ t₂
            rw [hpol₂] at h
            refine ⟨fun m _ hr => h.bounded m (happ₂ ▸ hr row (by simp)) fun r hr' => hr r (List.mem_cons_of_mem _ hr'),
              fun t' ht => ?_, fun t' ht => ?_, fun t' ht hp => ?_, fun t' ht hp => ?_⟩
            · rw [h.stores t' ht, hset, hdocs, ← applyAll_append, taken, taken, List.takeWhile_cons, hno]
              congr 2
              simp only [Bool.not_false, if_true, List.filter_cons]
              split <;> rfl
            · rw [h.paused t' ht, hpaused₂, List.any_cons, hno, Bool.false_or]
            · rw [List.any_cons, hno, Bool.false_or] at hp
              rw [hlog, reduceAll_append, hfold, ← hstate₂]
              exact h.state t' ht hp
            · rw [List.any_cons, hno, Bool.false_or] at hp
              rw [h.applied t' ht hp, happ₂, List.filter_cons_of_pos (by simpa using hlt), List.map_cons, List.getLast?_cons,
                Option.getD_some]
          by_cases hskip : (classify (upcast row) quarantined).decision = .skip ∧ d.pausePolicy = true ∧ poison = true
          · rw [if_pos hskip]
            have hauth : isAuthorityPause (upcast row) = false := by
              rw [Bool.eq_false_iff]
              exact fun h => hpause ⟨h, hskip.2⟩
            have href := (classify_skip hauth).1 hskip.1
            have hnt : takes quarantined (d.pausePolicy && poison) n row = false := by simp [takes, hskip.2, href]
            exact hrest _ t rfl rfl hpaused rfl (by rw [hnt]; rfl) fun _ => rfl
          · rw [if_neg hskip]
            have hyes : takes quarantined (d.pausePolicy && poison) n row = true := by
              simp only [takes, hlt, decide_true, Bool.true_and, Bool.not_eq_true', Bool.and_eq_false_iff]
              by_cases hp : d.pausePolicy = true ∧ poison = true
              · have hauth : isAuthorityPause (upcast row) = false := by
                  rw [Bool.eq_false_iff]
                  exact fun h => hpause ⟨h, hp⟩
                refine .inr ?_
                rw [Bool.eq_false_iff]
                exact fun h => hskip ⟨(classify_skip hauth).2 h, hp⟩
              · rcases not_and_or.1 hp with h | h
                · exact .inl (.inl (by simpa using h))
                · exact .inl (.inr (by simpa using h))
            exact hrest _ (t.setDocs schema (applySearch (upcast row) (t.docs schema))) rfl rfl hpaused rfl
              (by rw [hyes, t.setDocs_docs]; rfl) fun docs => t.setDocs_twice schema _ docs

end

/-! ## A run in two parts -/

/-- `_run_locked` up to `finalize`: what there is to commit, or nothing for a paused projection. -/
def replayPhase {σ : Type} (b : Builder σ) (wipe forceResume : Bool) (db : Projected σ) (d : Driver) :
    Driver × Except PyError (Option (ProjectionCheckpoint × σ)) :=
  let cp := (db.checkpoints b.projectionName).getD {}
  if cp.pauseReason ≠ none ∧ !forceResume then
    ({ d with paused := true, pauseReason := cp.pauseReason, appliedSeq := cp.appliedSeq }, .ok none)
  else
    let startSeq := if wipe then 0 else cp.appliedSeq
    let cp := if forceResume then cp.resumed else cp
    let d := { d with paused := false, pauseReason := none, eventsSeen := 0, skipped := 0, state := {} }
    let applyFrom := if wipe ∨ forceResume then 0 else startSeq
    match openStore b (wipe || forceResume) d db.stores with
    | .error e => (d, .error e)
    | .ok t =>
      let poison := b.poisonEnabled && !forceResume
      match replayLoop b db.quarantined poison applyFrom (loadEvents db.events 0) d t with
      | (d, .error e) => (d, .error e)
      | (d, .ok t) => (d, .ok (some (cp, t)))

/-- `_run_locked` from `finalize` on. -/
def commitPhase {σ : Type} (b : Builder σ) (wipe : Bool) (cp : ProjectionCheckpoint) (t : σ) (db : Projected σ) (d : Driver) :
    Projected σ × Except PyError BuildReport :=
  match b.finalize d t with
  | .error e => (db, .error e)
  | .ok t =>
    let db := { db with
      stores := t
      checkpoints := upd db.checkpoints b.projectionName (some (newCheckpoint cp d)) }
    (db, .ok (d.report b.projectionName (tailOf db.events) wipe d.eventsSeen))

/-- A run is its two parts with nothing between. -/
theorem runLocked_phases {σ : Type} (b : Builder σ) (wipe forceResume : Bool) (db : Projected σ) (d : Driver) :
    runLocked b wipe forceResume db d =
      match replayPhase b wipe forceResume db d with
      | (d, .error e) => (db, d, .error e)
      | (d, .ok none) => (db, d, .ok (d.report b.projectionName (tailOf db.events) false 0))
      | (d, .ok (some (cp, t))) => ((commitPhase b wipe cp t db d).1, d, (commitPhase b wipe cp t db d).2) := by
  unfold runLocked replayPhase commitPhase
  dsimp only
  split
  · rfl
  · cases openStore b (wipe || forceResume) _ db.stores with
    | error e => rfl
    | ok t =>
      dsimp only
      obtain ⟨d', e | t'⟩ := replayLoop b db.quarantined _ _ (loadEvents db.events 0) _ t
      · rfl
      · dsimp only
        cases b.finalize d' t' <;> rfl

/-- Where a run begins to apply events. -/
def startSeq {σ : Type} (name : String) (wipe forceResume : Bool) (db : Projected σ) : Nat :=
  if wipe ∨ forceResume then 0 else db.applied name

section
variable {listed : CurrentReducedState → List Key} {schema : String} {edgeCp : Option ProjectionCheckpoint}

/-- The documents a search run applies its events to. -/
def openDocs (fresh : Bool) (t : DocTable) : DocTable := if fresh then [] else t

/-- A run may pause and skip. -/
def mayPause (forceResume : Bool) (d : Driver) : Bool := d.pausePolicy && !forceResume

/-- What a search run of `d` has to commit: `d'` is its driver then. -/
structure Replayed (schema : String) (wipe forceResume : Bool) (db : Projected Stores) (d d' : Driver) (cp : ProjectionCheckpoint)
    (t : Stores) : Prop where
  running : cp.pauseReason = none
  stores : t = db.stores.setDocs schema
    (applyAll (taken db.quarantined (mayPause forceResume d) (startSeq searchProjection wipe forceResume db) (loadEvents db.events 0))
      (openDocs (wipe || forceResume) (db.stores.docs schema)))
  paused : d'.paused = (loadEvents db.events 0).any
    (pausesAt (mayPause forceResume d) (startSeq searchProjection wipe forceResume db))
  state : d'.paused = false → reduceAll {} (logOf (loadEvents db.events 0)) = .ok d'.state
  applied : d'.paused = false → d'.appliedSeq =
    if ∃ r ∈ db.events, startSeq searchProjection wipe forceResume db < r.seq then tailOf db.events else d.appliedSeq

theorem last_past {rows : List EventRow} (n m : Nat) :
    ((((loadEvents rows 0).filter fun row => n < row.seq).map (·.seq)).getLast?).getD m =
      if ∃ r ∈ rows, n < r.seq then tailOf rows else m := by
  split
  · rename_i h
    rw [getLast?_past h, Option.getD_some]
  · rename_i h
    rw [List.filter_eq_nil_iff.2, List.map_nil, List.getLast?_nil, Option.getD_none]
    intro r hr
    rw [decide_eq_true_eq]
    exact fun hlt => h ⟨r, (mem_loadEvents.1 hr).1, hlt⟩

/-- The first part of a search run. -/
theorem replayPhase_search {wipe forceResume : Bool} {db : Projected Stores} {d : Driver} :
    (∀ m, d.appliedSeq ≤ m → db.applied searchProjection ≤ m → tailOf db.events ≤ m →
      (replayPhase (searchBuilder listed schema edgeCp) wipe forceResume db d).1.appliedSeq ≤ m) ∧
    ∀ cp t, (replayPhase (searchBuilder listed schema edgeCp) wipe forceResume db d).2 = .ok (some (cp, t)) →
      Replayed schema wipe forceResume db d (replayPhase (searchBuilder listed schema edgeCp) wipe forceResume db d).1 cp t := by
  have hname : (searchBuilder listed schema edgeCp).projectionName = searchProjection := rfl
  have hpoison : (searchBuilder listed schema edgeCp).poisonEnabled = true := rfl
  unfold replayPhase
  simp only [hname, hpoison, Bool.true_and]
  split
  · exact ⟨fun m _ h _ => h, fun cp t h => by cases h⟩
  · rename_i hrun
    have hopen : ∀ d₀, openStore (searchBuilder listed schema edgeCp) (wipe || forceResume) d₀ db.stores =
        .ok (db.stores.setDocs schema (openDocs (wipe || forceResume) (db.stores.docs schema))) := by
      intro d₀
      cases wipe || forceResume with
      | true => rfl
      | false => exact congrArg Except.ok (db.stores.setDocs_self schema).symm
    have hstart : (if wipe = true ∨ forceResume = true then 0
        else if wipe = true then 0 else ((db.checkpoints searchProjection).getD {}).appliedSeq) =
        startSeq searchProjection wipe forceResume db := by
      unfold startSeq
      split
      · rfl
      · rename_i hnot
        rw [if_neg fun hw => hnot (.inl hw)]
        rfl
    simp only [hopen, hstart]
    generalize hd : ({ d with paused := false, pauseReason := none, eventsSeen := 0, skipped := 0, state := {} } : Driver) = d₀
    have happ : d₀.appliedSeq = d.appliedSeq := by rw [← hd]
    have hpaused : d₀.paused = false := by rw [← hd]
    have hstate : d₀.state = {} := by rw [← hd]
    have hpol : d₀.pausePolicy = d.pausePolicy := by rw [← hd]
    have h := @searchLoop listed schema edgeCp db.quarantined (!forceResume) (startSeq searchProjection wipe forceResume db)
      (loadEvents db.events 0) d₀ (db.stores.setDocs schema (openDocs (wipe || forceResume) (db.stores.docs schema)))
    rw [hpol] at h
    generalize replayLoop (searchBuilder listed schema edgeCp) db.quarantined (!forceResume)
      (startSeq searchProjection wipe forceResume db) (loadEvents db.events 0) d₀
      (db.stores.setDocs schema (openDocs (wipe || forceResume) (db.stores.docs schema))) = res at h ⊢
    obtain ⟨d', e | t'⟩ := res
    · exact ⟨fun m hm _ ht => h.bounded m (happ ▸ hm) fun r hr => (le_tailOf (mem_loadEvents.1 hr).1).trans ht, by simp⟩
    · refine ⟨fun m hm _ ht => h.bounded m (happ ▸ hm) fun r hr => (le_tailOf (mem_loadEvents.1 hr).1).trans ht,
        fun cp t heq => ?_⟩
      cases heq
      have hp := h.paused _ rfl
      rw [hpaused, Bool.false_or] at hp
      refine ⟨?_, ?_, hp, fun hno => ?_, fun hno => ?_⟩
      · cases forceResume with
        | true => rfl
        | false => simpa using hrun
      · rw [h.stores _ rfl, Stores.setDocs_twice, Stores.setDocs_docs]
        rfl
      · rw [← hstate]
        exact h.state _ rfl (hp ▸ hno)
      · rw [h.applied _ rfl (hp ▸ hno), happ, last_past]

theorem Replayed.edges {wipe forceResume : Bool} {db : Projected Stores} {d d' : Driver} {cp : ProjectionCheckpoint} {t : Stores}
    (h : Replayed schema wipe forceResume db d d' cp t) : t.edges = db.stores.edges := by
  rw [h.stores, Stores.setDocs_edges]

/-! ## The end of a run -/

/-- The documents that are not of edges, once the canonical entities are indexed anew. -/
def baseDocs (listed : CurrentReducedState → List Key) (s : CurrentReducedState) (t : DocTable) : Except PyError DocTable := do
  let docs ← (rowItems listed s).mapM (canonicalDocs s)
  return (docs.flatten.foldl DocTable.upsert (t.filter fun doc => doc.kind ≠ .canonicalEntity)).filter fun doc => !isEdgeRef doc.ref

/-- The documents of the active edges that have a text. -/
def edgeDocs (edges : EdgeTable) : List SearchDoc := (activeDocs edges).filter fun doc => doc.text ≠ ""

theorem finalizeSearch_eq (d : Driver) (edges : EdgeTable) (t : DocTable) :
    finalizeSearch listed edgeCp d edges t = (baseDocs listed d.state t).bind fun base =>
      if edgesTrail edgeCp d then .error .runtimeError else .ok ((activeDocs edges).foldl DocTable.upsert base) := by
  unfold finalizeSearch baseDocs indexActiveEdges
  cases (rowItems listed d.state).mapM (canonicalDocs d.state) with
  | error e => rfl
  | ok docs => rfl

/-- Documents of keys that are not there, each once, are added. -/
theorem foldl_upsert {ds : List SearchDoc} : ∀ {t : DocTable}, (ds.map (·.ref)).Nodup → (∀ doc ∈ ds, doc.ref ≠ "") →
    (∀ doc ∈ t, ∀ doc' ∈ ds, doc.ref ≠ doc'.ref) → ds.foldl DocTable.upsert t = t ++ ds.filter fun doc => doc.text ≠ "" := by
  induction ds with
  | nil => exact fun _ _ _ => (List.append_nil _).symm
  | cons doc ds ih =>
    intro t hn hne hfresh
    rw [List.map_cons, List.nodup_cons] at hn
    have hrest : ∀ doc' ∈ ds, doc.ref ≠ doc'.ref := fun doc' hd he => hn.1 (he ▸ List.mem_map_of_mem hd)
    rw [List.foldl_cons]
    by_cases ht : doc.text = ""
    · have hup : t.upsert doc = t := if_pos (.inr ht)
      rw [hup, ih hn.2 (fun d hd => hne d (List.mem_cons_of_mem _ hd))
        (fun d hd d' hd' => hfresh d hd d' (List.mem_cons_of_mem _ hd')), List.filter_cons_of_neg (by simpa using ht)]
    · have hany : t.any (·.sameKey doc) = false := by
        rw [List.any_eq_false]
        intro d hd hs
        simp only [SearchDoc.sameKey, Bool.and_eq_true, decide_eq_true_eq] at hs
        exact hfresh d hd doc (by simp) hs.2
      have hup : t.upsert doc = t ++ [doc] := by
        unfold DocTable.upsert
        rw [if_neg (by simp [hne doc (by simp), ht]), if_neg (by rw [hany]; exact Bool.false_ne_true)]
      rw [hup, ih hn.2 (fun d hd => hne d (List.mem_cons_of_mem _ hd)) fun d hd d' hd' => ?_,
        List.filter_cons_of_pos (by simpa using ht), List.append_assoc, List.singleton_append]
      rcases List.mem_append.1 hd with hd | hd
      · exact hfresh d hd d' (List.mem_cons_of_mem _ hd')
      · rw [List.mem_singleton.1 hd]
        exact hrest d' hd'

theorem edgeDoc_isEdgeRef (r : EdgeRow) : isEdgeRef (edgeDoc r).ref = true := by
  unfold edgeDoc isEdgeRef
  dsimp only
  split <;> simp [edgeDocPrefix, assertDocPrefix]

/-- A document names the fact of its edge. -/
theorem edgeDoc_ref_inj {r r' : EdgeRow} (h : (edgeDoc r).ref = (edgeDoc r').ref) : r.factId = r'.factId := by
  have hl := congrArg String.toList h
  simp only [edgeDoc, String.toList_append] at hl
  split at hl <;> split at hl
  · exact String.toList_inj.1 (List.append_cancel_left hl)
  · simp [edgeDocPrefix, assertDocPrefix] at hl
  · simp [edgeDocPrefix, assertDocPrefix] at hl
  · exact String.toList_inj.1 (List.append_cancel_left hl)

theorem activeDocs_nodup {edges : EdgeTable} (h : edges.ids.Nodup) : ((activeDocs edges).map (·.ref)).Nodup := by
  unfold activeDocs
  rw [List.map_map]
  have hsub : ((edges.filter (·.active)).map (·.factId)).Nodup := h.sublist (List.Sublist.map _ List.filter_sublist)
  exact List.pairwise_map.2 ((List.pairwise_map.1 hsub).imp fun hne he => hne (edgeDoc_ref_inj he))

/-- **The edge documents a run leaves are those of the active edges**, and the others those it had before. -/
theorem finalizeSearch_edges {d : Driver} {edges : EdgeTable} {t t' : DocTable} (hn : edges.ids.Nodup)
    (h : finalizeSearch listed edgeCp d edges t = .ok t') : edgesTrail edgeCp d = false ∧
      (t'.filter fun doc => isEdgeRef doc.ref) = edgeDocs edges ∧
      baseDocs listed d.state t = .ok (t'.filter fun doc => !isEdgeRef doc.ref) := by
  rw [finalizeSearch_eq] at h
  cases hb : baseDocs listed d.state t with
  | error e => rw [hb] at h; cases h
  | ok base =>
    rw [hb] at h
    simp only [Except.bind] at h
    split at h
    · cases h
    · rename_i htrail
      cases h
      have hbase : ∀ doc ∈ base, isEdgeRef doc.ref = false := by
        unfold baseDocs at hb
        cases hm : (rowItems listed d.state).mapM (canonicalDocs d.state) with
        | error e => rw [hm] at hb; cases hb
        | ok docs =>
          rw [hm] at hb
          cases hb
          intro doc hdoc
          simpa using (List.mem_filter.1 hdoc).2
      have hedge : ∀ doc ∈ activeDocs edges, isEdgeRef doc.ref = true := by
        intro doc hdoc
        obtain ⟨r, -, rfl⟩ := List.mem_map.1 hdoc
        exact edgeDoc_isEdgeRef r
      rw [foldl_upsert (activeDocs_nodup hn)]
      · refine ⟨by simpa using htrail, ?_, ?_⟩
        · rw [List.filter_append, List.filter_eq_nil_iff.2 (by simpa using hbase), List.nil_append]
          exact List.filter_eq_self.2 fun doc hdoc => hedge doc (List.mem_filter.1 hdoc).1
        · rw [List.filter_append, List.filter_eq_self.2 (by simpa using hbase),
            List.filter_eq_nil_iff.2, List.append_nil]
          intro doc hdoc
          simp [hedge doc (List.mem_filter.1 hdoc).1]
      · intro doc hdoc he
        have := hedge doc hdoc
        rw [he] at this
        exact absurd this (by decide)
      · intro doc hdoc doc' hdoc' he
        have := hbase doc hdoc
        rw [he, hedge doc' hdoc'] at this
        cases this

/-- What a search run that is not refused commits. -/
theorem runLocked_search {wipe forceResume : Bool} {db db' : Projected Stores} {d d' : Driver} {report : BuildReport}
    (hstart : forceResume = true ∨ ((db.checkpoints searchProjection).getD {}).pauseReason = none)
    (h : runLocked (searchBuilder listed schema edgeCp) wipe forceResume db d = (db', d', .ok report)) :
    db'.events = db.events ∧ db'.quarantined = db.quarantined ∧ ∃ cp t docs, Replayed schema wipe forceResume db d d' cp t ∧
      finalizeSearch listed edgeCp d' db.stores.edges (t.docs schema) = .ok docs ∧ db'.stores = db.stores.setDocs schema docs ∧
      db'.checkpoints = upd db.checkpoints searchProjection (some (newCheckpoint cp d')) := by
  have hspec := (@replayPhase_search listed schema edgeCp wipe forceResume db d).2
  rw [runLocked_phases] at h
  have hname : (searchBuilder listed schema edgeCp).projectionName = searchProjection := rfl
  have hgo : ∀ d₁, (replayPhase (searchBuilder listed schema edgeCp) wipe forceResume db d) ≠ (d₁, .ok none) := by
    intro d₁
    unfold replayPhase
    simp only [hname]
    have hcond : ¬ (((db.checkpoints searchProjection).getD {}).pauseReason ≠ none ∧ (!forceResume) = true) := by
      rintro ⟨h1, h2⟩
      rcases hstart with h | h
      · rw [h] at h2
        cases h2
      · exact h1 h
    rw [if_neg hcond]
    cases openStore (searchBuilder listed schema edgeCp) (wipe || forceResume) _ db.stores with
    | error e => simp
    | ok t =>
      dsimp only
      generalize replayLoop (searchBuilder listed schema edgeCp) _ _ _ _ _ _ = r
      obtain ⟨d₂, e | t'⟩ := r <;> simp
  generalize hr : replayPhase (searchBuilder listed schema edgeCp) wipe forceResume db d = r at h hspec hgo
  obtain ⟨d₁, e | (_ | ⟨cp, t⟩)⟩ := r
  · cases h
  · exact absurd rfl (hgo d₁)
  · simp only [Prod.mk.injEq] at h
    obtain ⟨hdb, rfl, hrep⟩ := h
    have hreplayed := hspec cp t rfl
    unfold commitPhase at hdb hrep
    have hfin : (searchBuilder listed schema edgeCp).finalize d₁ t =
        (finalizeSearch listed edgeCp d₁ db.stores.edges (t.docs schema)).map (t.setDocs schema) := by
      rw [← hreplayed.edges]
      rfl
    rw [hfin] at hdb hrep
    cases hf : finalizeSearch listed edgeCp d₁ db.stores.edges (t.docs schema) with
    | error e => rw [hf] at hrep; cases hrep
    | ok docs =>
      rw [hf] at hdb
      cases hdb
      refine ⟨rfl, rfl, cp, t, docs, hreplayed, hf, ?_, rfl⟩
      change t.setDocs schema docs = _
      rw [hreplayed.stores, Stores.setDocs_twice]

end

end Umd.Projections
