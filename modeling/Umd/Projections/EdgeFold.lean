import Umd.Projections.EdgeChanges
/-!
# The edges as a fold of the log

Row by row a change is a function of the row with that fact id alone
(`Change.on_find`). The changes of a log are made under the locks in force at
each event, and a run of the builder makes those past its checkpoint
(`edgeLoop`).
-/

namespace Umd.Projections

open Umd.Lib Umd.Events Umd.Reducer Umd.Ledger

/-! ## Row by row -/

/-- The row of a fact. -/
def EdgeTable.find (t : EdgeTable) (id : Uuid) : Option EdgeRow := t.find? (·.factId = id)

def EdgeTable.ids (t : EdgeTable) : List Uuid := t.map (·.factId)

/-- What a change makes of the row of a fact. -/
def Change.rowAt (c : Change) (seq : Nat) (id : Uuid) (o : Option EdgeRow) : Option EdgeRow :=
  match c.puts with
  | none => o.map (c.touch seq)
  | some row => if row.factId = id then some row else o.map (c.touch seq)

@[simp] theorem touch_factId (c : Change) (seq : Nat) (r : EdgeRow) : (c.touch seq r).factId = r.factId := by
  unfold Change.touch
  split
  · rfl
  · split
    · split <;> rfl
    · rfl

theorem find_map {f : EdgeRow → EdgeRow} (hf : ∀ r, (f r).factId = r.factId) (t : EdgeTable) (id : Uuid) :
    EdgeTable.find (t.map f) id = (t.find id).map f := by
  unfold EdgeTable.find
  rw [List.find?_map]
  congr 1
  exact congrArg (List.find? · t) (funext fun r => by simp [hf])

theorem find_none {t : EdgeTable} {id : Uuid} (h : t.find id = none) : id ∉ t.ids := by
  intro hm
  obtain ⟨r, hr, rfl⟩ := List.mem_map.1 hm
  simpa using List.find?_eq_none.1 h r hr

theorem find_some {t : EdgeTable} {id : Uuid} {r : EdgeRow} (h : t.find id = some r) : r ∈ t ∧ r.factId = id :=
  ⟨List.mem_of_find?_eq_some h, by simpa using List.find?_some h⟩

/-- The put overwrites the row of its fact id and no other. -/
theorem find_upsert (t : EdgeTable) (row : EdgeRow) (id : Uuid) :
    (t.upsert row).find id = if row.factId = id then some row else t.find id := by
  unfold EdgeTable.upsert
  split
  · rename_i hany
    rw [find_map (f := fun r => if r.factId = row.factId then row else r)
      fun r => by split <;> simp_all]
    cases hf : t.find id with
    | none =>
      have hne : row.factId ≠ id := by
        rintro rfl
        obtain ⟨r, hr, he⟩ := List.any_eq_true.1 hany
        exact find_none hf (List.mem_map.2 ⟨r, hr, by simpa using he⟩)
      simp [hne]
    | some r =>
      have hid := (find_some hf).2
      by_cases he : row.factId = id
      · simp [hid, he]
      · simp [hid, Ne.symm he, he]
  · rename_i hany
    unfold EdgeTable.find
    rw [List.find?_append]
    by_cases he : row.factId = id
    · subst he
      have hnone : t.find? (fun r => decide (r.factId = row.factId)) = none := by
        rw [List.find?_eq_none]
        intro r hr hc
        exact hany (List.any_eq_true.2 ⟨r, hr, hc⟩)
      simp [hnone]
    · simp [he]

/-- **A change acts on the row of each fact alone.** -/
theorem Change.on_find (c : Change) (seq : Nat) (t : EdgeTable) (id : Uuid) :
    (c.on seq t).find id = c.rowAt seq id (t.find id) := by
  unfold Change.on Change.rowAt
  cases c.puts with
  | none => exact find_map (touch_factId c seq) t id
  | some row =>
    dsimp only
    rw [find_upsert, find_map (touch_factId c seq)]

theorem ids_map {f : EdgeRow → EdgeRow} (hf : ∀ r, (f r).factId = r.factId) (t : EdgeTable) :
    EdgeTable.ids (t.map f) = t.ids := by
  simp [EdgeTable.ids, hf]

theorem ids_upsert (t : EdgeTable) (row : EdgeRow) :
    (t.upsert row).ids = if row.factId ∈ t.ids then t.ids else t.ids ++ [row.factId] := by
  have hmem : row.factId ∈ t.ids ↔ t.any (·.factId = row.factId) = true := by
    simp [EdgeTable.ids, List.any_eq_true]
  unfold EdgeTable.upsert
  by_cases hm : row.factId ∈ t.ids
  · rw [if_pos hm, if_pos (hmem.1 hm)]
    exact ids_map (fun r => by split <;> simp_all) t
  · rw [if_neg hm, if_neg (fun h => hm (hmem.2 h))]
    simp [EdgeTable.ids]

/-- The fact ids a change leaves. -/
theorem Change.on_ids (c : Change) (seq : Nat) (t : EdgeTable) :
    (c.on seq t).ids =
      match c.puts with
      | none => t.ids
      | some row => if row.factId ∈ t.ids then t.ids else t.ids ++ [row.factId] := by
  unfold Change.on
  cases c.puts with
  | none => exact ids_map (touch_factId c seq) t
  | some row =>
    dsimp only
    rw [ids_upsert, ids_map (touch_factId c seq)]

theorem Change.on_nodup {c : Change} {seq : Nat} {t : EdgeTable} (h : t.ids.Nodup) : (c.on seq t).ids.Nodup := by
  rw [Change.on_ids]
  split
  · exact h
  · split
    · exact h
    · rename_i hn
      exact List.nodup_append.2 ⟨h, by simp, by rintro a ha b hb rfl; exact hn (List.mem_singleton.1 hb ▸ ha)⟩

/-- Two tables with the same fact ids in order and the same row of each are the same. -/
theorem EdgeTable.ext_find {t t' : EdgeTable} (hn : t.ids.Nodup) (hi : t.ids = t'.ids) (hf : ∀ id, t.find id = t'.find id) :
    t = t' := by
  induction t generalizing t' with
  | nil => cases t' with
    | nil => rfl
    | cons r t' => cases hi
  | cons r t ih =>
    cases t' with
    | nil => cases hi
    | cons r' t' =>
      simp only [EdgeTable.ids, List.map_cons, List.cons.injEq, List.nodup_cons] at hi hn
      have hr : r = r' := by
        have := hf r.factId
        simpa [EdgeTable.find, hi.1] using this
      subst hr
      refine congrArg (r :: ·) (ih hn.2 hi.2 fun id => ?_)
      by_cases he : r.factId = id
      · subst he
        have h1 : EdgeTable.find t r.factId = none := List.find?_eq_none.2 fun x hx hc =>
          hn.1 (List.mem_map.2 ⟨x, hx, by simpa using hc⟩)
        have h2 : EdgeTable.find t' r.factId = none := List.find?_eq_none.2 fun x hx hc =>
          hn.1 (hi.2 ▸ List.mem_map.2 ⟨x, hx, by simpa using hc⟩)
        rw [h1, h2]
      · simpa [EdgeTable.find, he] using hf id

/-! ## Conflict refs stay texts -/

/-- A stored event puts a row whose conflict refs are texts. -/
theorem changeOf_clean {locks : String → Bool} {ev : SemanticEvent} (h : Accepted ev) {row : EdgeRow}
    (hp : (changeOf locks ev).puts = some row) : row.Clean := by
  have hputs := changeOf_puts hp
  have he := hputs.edgeEvent
  have hr : row.contradictionRefs = pyOr (ev.payload.get "contradiction_refs") (.arr []) := by cases hputs <;> rfl
  unfold EdgeRow.Clean
  rw [hr]
  rcases edge_list h he (k := "contradiction_refs") (by decide) with hn | ⟨xs, hx⟩
  · exact ⟨[], by rw [hn]; rfl⟩
  · cases xs with
    | nil => exact ⟨[], by rw [hx]; rfl⟩
    | cons x xs => exact ⟨x :: xs, by rw [hx]; rfl⟩

theorem touch_clean {c : Change} {seq : Nat} {r : EdgeRow} (h : r.Clean) : (c.touch seq r).Clean := by
  unfold Change.touch
  split
  · exact h
  · split
    · split
      · exact ⟨_, rfl⟩
      · exact h
    · exact h

theorem Change.on_clean {c : Change} {seq : Nat} {t : EdgeTable} (hc : ∀ row, c.puts = some row → row.Clean) (h : t.Clean) :
    (c.on seq t).Clean := by
  have hmap : EdgeTable.Clean (t.map (c.touch seq)) := fun r hr => by
    obtain ⟨r₀, hr₀, rfl⟩ := List.mem_map.1 hr
    exact touch_clean (h r₀ hr₀)
  unfold Change.on
  cases hp : c.puts with
  | none => exact hmap
  | some row =>
    dsimp only
    unfold EdgeTable.upsert
    split
    · intro r hr
      obtain ⟨r₀, hr₀, rfl⟩ := List.mem_map.1 hr
      split
      · exact hc row hp
      · exact hmap r₀ hr₀
    · intro r hr
      rcases List.mem_append.1 hr with hr | hr
      · exact hmap r hr
      · rw [List.mem_singleton.1 hr]
        exact hc row hp

/-! ## The changes of a log -/

/-- The changes of rows that follow `pre`, each under the locks in force at its event. -/
def changes (pre : List EventRow) : List EventRow → List (Nat × Change)
  | [] => []
  | row :: rows =>
    (row.seq, changeOf (lastIsLocked (logOf (pre ++ [row]))) (upcast row)) :: changes (pre ++ [row]) rows

/-- The changes made one after another. -/
def onAll (cs : List (Nat × Change)) (t : EdgeTable) : EdgeTable := cs.foldl (fun t c => c.2.on c.1 t) t

theorem onAll_append (cs cs' : List (Nat × Change)) (t : EdgeTable) : onAll (cs ++ cs') t = onAll cs' (onAll cs t) :=
  List.foldl_append

theorem changes_append (pre rows rows' : List EventRow) :
    changes pre (rows ++ rows') = changes pre rows ++ changes (pre ++ rows) rows' := by
  induction rows generalizing pre with
  | nil => simp [changes]
  | cons row rows ih => simp [changes, ih, List.append_assoc]

theorem changes_seq (pre rows : List EventRow) : (changes pre rows).map (·.1) = rows.map (·.seq) := by
  induction rows generalizing pre with
  | nil => rfl
  | cons row rows ih => simp [changes, ih]

/-- Every row of a log was inserted from an event that was accepted. -/
def StoredRows (rows : List EventRow) : Prop := ∀ r ∈ rows, Accepted (upcast r)

theorem mem_changes {pre rows : List EventRow} {c : Nat × Change} (h : c ∈ changes pre rows) :
    ∃ locks, ∃ r ∈ rows, c = (r.seq, changeOf locks (upcast r)) := by
  induction rows generalizing pre with
  | nil => cases h
  | cons row rows ih =>
    rcases List.mem_cons.1 h with rfl | h
    · exact ⟨_, row, by simp, rfl⟩
    · obtain ⟨locks, r, hr, rfl⟩ := ih h
      exact ⟨locks, r, List.mem_cons_of_mem _ hr, rfl⟩

theorem onAll_clean {pre rows : List EventRow} (hs : StoredRows rows) {cs : List (Nat × Change)}
    (hcs : ∀ c ∈ cs, c ∈ changes pre rows) {t : EdgeTable} (ht : t.Clean) : (onAll cs t).Clean := by
  induction cs generalizing t with
  | nil => exact ht
  | cons c cs ih =>
    obtain ⟨locks, r, hr, rfl⟩ := mem_changes (hcs c (by simp))
    exact ih (fun c hc => hcs c (List.mem_cons_of_mem _ hc)) (Change.on_clean (fun _ => changeOf_clean (hs r hr)) ht)

theorem onAll_nodup {cs : List (Nat × Change)} {t : EdgeTable} (h : t.ids.Nodup) : (onAll cs t).ids.Nodup := by
  induction cs generalizing t with
  | nil => exact h
  | cons c cs ih => exact ih (Change.on_nodup h)

/-! ## Runs of the builder -/

/-- The state a driver folds follows the locks of the log. -/
def Follows (s : CurrentReducedState) (pre : List EventRow) : Prop := ∀ ref, s.locks ref = lastIsLocked (logOf pre) ref

theorem logOf_one (row : EventRow) : logOf [row] = if (upcast row).isSemantic then [upcast row] else [] := by
  simp [logOf, List.filter_cons]

/-- One event of the canonical fold. -/
theorem fold_event {d : Driver} {row : EventRow} {pre : List EventRow} (hd : Follows d.state pre) :
    (∃ e, d.fold (upcast row) = .error e ∧ reduceAll d.state (logOf [row]) = .error e) ∨
    ∃ s, d.fold (upcast row) = .ok { d with state := s } ∧ reduceAll d.state (logOf [row]) = .ok s ∧
      Follows s (pre ++ [row]) := by
  unfold Driver.fold
  rw [logOf_one]
  cases hsem : (upcast row).isSemantic with
  | false =>
    refine .inr ⟨d.state, by simp, by simp [reduceAll], fun ref => ?_⟩
    rw [logOf_append, logOf_one, hsem]
    simpa using hd ref
  | true =>
    cases hr : reduce d.state (upcast row) with
    | error e => exact .inl ⟨e, by simp [Except.map], by simp [reduceAll, bind, Except.bind, hr]⟩
    | ok s =>
      refine .inr ⟨s, by simp [Except.map], by simp [reduceAll, bind, Except.bind, hr], fun ref => ?_⟩
      rw [logOf_append, logOf_one, hsem, if_pos rfl, lastIsLocked_append, reduce_locks hr, hd]
      rfl

/-- The loop raises what the canonical fold raises, and otherwise makes the changes past `applyFrom`. -/
theorem edgeLoop {quarantined : List String} {n : Nat} {rows : List EventRow} :
    ∀ {pre : List EventRow} {d : Driver} {t : EdgeTable}, StoredRows rows → t.Clean → Follows d.state pre →
      (replayLoop edgeBuilder quarantined false n rows d t).2 =
        (reduceAll d.state (logOf rows)).map fun _ => onAll ((changes pre rows).filter fun c => n < c.1) t := by
  induction rows with
  | nil => intro pre d t _ _ _; rfl
  | cons row rows ih =>
    intro pre d t hs ht hd
    have hacc := hs row (by simp)
    have hs' : StoredRows rows := fun r hr => hs r (List.mem_cons_of_mem _ hr)
    have hlog : logOf (row :: rows) = logOf [row] ++ logOf rows := by rw [← logOf_append]; rfl
    have hseq : (upcast row).seq.getD 0 = row.seq := rfl
    rw [replayLoop, hlog, reduceAll_append]
    rcases @fold_event _ row _ hd with ⟨e, hf, hr⟩ | ⟨s, hf, hr, hd'⟩
    · rw [hf, hr]; rfl
    · rw [hf, hr]
      simp only [hseq, Except.bind]
      by_cases hle : row.seq ≤ n
      · -- applied in a prior run
        rw [if_pos hle, @ih (pre ++ [row]) _ _ hs' ht hd', changes,
          List.filter_cons_of_neg (by simpa using hle)]
      · rw [if_neg hle]
        simp only [Bool.false_eq_true, and_false, if_false]
        rw [show edgeBuilder.apply = applyEdge from rfl, applyEdge_eq hacc ht, changes,
          List.filter_cons_of_pos (by simpa using hle)]
        have hlocks : s.locks = lastIsLocked (logOf (pre ++ [row])) := funext hd'
        simp only [hseq, hlocks]
        rw [@ih (pre ++ [row]) _ _ hs' (Change.on_clean (fun _ => changeOf_clean hacc) ht) hd']
        rfl

/-- The rows of an empty table are clean. -/
theorem clean_nil : EdgeTable.Clean [] := fun _ h => absurd h List.not_mem_nil

/-- The table a run of the builder applies its events to. -/
def openEdges (wipe : Bool) (t : EdgeTable) : EdgeTable := if wipe then [] else t

/-- What a run of the builder does: it raises what the canonical fold raises and leaves the database, or it makes the
changes past its checkpoint. -/
structure EdgeRun (wipe : Bool) (db : Projected EdgeTable)
    (r : Projected EdgeTable × Driver × Except PyError BuildReport) : Prop where
  outcome : (∃ e, reduceAll {} (logOf db.events) = .error e ∧ r.1 = db ∧ r.2.2 = .error e) ∨
    ∃ s report, reduceAll {} (logOf db.events) = .ok s ∧ r.2.2 = .ok report ∧
      r.1 = { db with
        stores := onAll ((changes [] db.events).filter fun c => applyFrom db edgeBuilder wipe < c.1) (openEdges wipe db.stores)
        checkpoints := upd db.checkpoints edgeProjection
          (some (((db.checkpoints edgeProjection).getD {}).withApplied r.2.1.appliedSeq)) }

theorem run_edges {wipe : Bool} {db : Projected EdgeTable} {d : Driver}
    (hcp : ((db.checkpoints edgeProjection).getD {}).pauseReason = none) (hs : StoredRows db.events)
    (hload : loadEvents db.events 0 = db.events) (ht : db.stores.Clean) :
    EdgeRun wipe db (runLocked edgeBuilder wipe false db d) := by
  have hname : edgeBuilder.projectionName = edgeProjection := rfl
  have hfrom : (if wipe = true then 0 else if wipe = true then 0 else ((db.checkpoints edgeProjection).getD {}).appliedSeq) =
      applyFrom db edgeBuilder wipe := by
    unfold applyFrom
    split <;> rfl
  have hopen : ∀ d', openStore edgeBuilder wipe d' db.stores = .ok (openEdges wipe db.stores) := by
    intro d'
    cases wipe <;> rfl
  constructor
  unfold runLocked
  simp only [hname, hcp, ne_eq, not_true_eq_false, if_false, Bool.not_false, and_true, Bool.false_eq_true, or_false,
    Bool.or_false, Bool.and_true, show edgeBuilder.poisonEnabled = false from rfl, hload, hopen, hfrom]
  generalize hd : ({ d with paused := false, pauseReason := none, eventsSeen := 0, skipped := 0, state := {} } : Driver) = d₀
  have hstate : d₀.state = {} := by rw [← hd]
  have hclean : (openEdges wipe db.stores).Clean := by
    unfold openEdges
    split
    · exact clean_nil
    · exact ht
  have hloop := @edgeLoop db.quarantined (applyFrom db edgeBuilder wipe) db.events [] d₀ (openEdges wipe db.stores) hs hclean
    (fun ref => by rw [hstate]; rfl)
  have hpaused := (@replayLoop_applied _ edgeBuilder db.quarantined (applyFrom db edgeBuilder wipe) db.events d₀
    (openEdges wipe db.stores)).1
  rw [hstate] at hloop
  rw [show d₀.paused = false by rw [← hd]] at hpaused
  generalize replayLoop edgeBuilder db.quarantined false (applyFrom db edgeBuilder wipe) db.events d₀
    (openEdges wipe db.stores) = r at hloop hpaused
  obtain ⟨d', res⟩ := r
  dsimp only at hloop hpaused
  subst hloop
  cases hr : reduceAll {} (logOf db.events) with
  | error e => exact .inl ⟨e, rfl, rfl, rfl⟩
  | ok s =>
    refine .inr ⟨s, _, rfl, rfl, ?_⟩
    simp only [Except.map, newCheckpoint, hpaused, Bool.false_eq_true, if_false]
    rfl

/-- The stores a run leaves, or what it raises. -/
def built {σ : Type} (r : Projected σ × Driver × Except PyError BuildReport) : Except PyError σ := r.2.2.map fun _ => r.1.stores

/-- A single wiping run over a log. -/
def wiped (rows : List EventRow) : Except PyError EdgeTable :=
  built (runLocked edgeBuilder true false { events := rows, stores := [] } {})

/-- Every change of a log in seq order is past 0. -/
theorem changes_positive {rows : List EventRow} (hp : ∀ r ∈ rows, 0 < r.seq) (pre : List EventRow) :
    (changes pre rows).filter (fun c => 0 < c.1) = changes pre rows := by
  rw [List.filter_eq_self]
  intro c hc
  obtain ⟨_, r, hr, rfl⟩ := mem_changes hc
  simpa using hp r hr

/-- The rows a log leaves. -/
def edgesOf (rows : List EventRow) : EdgeTable := onAll (changes [] rows) []

/-- **A wiping run leaves the rows of the log**, or raises what the canonical fold raises. -/
theorem wiped_eq {rows : List EventRow} (hs : StoredRows rows) (ho : (rows.map (·.seq)).Pairwise (· < ·))
    (hp : ∀ r ∈ rows, 0 < r.seq) : wiped rows = (reduceAll {} (logOf rows)).map fun _ => edgesOf rows := by
  have hload : loadEvents rows 0 = rows := loadEvents_ordered ho hp
  have hrun := (@run_edges true { events := rows, stores := [] } {} rfl hs hload clean_nil).outcome
  unfold wiped built
  rcases hrun with ⟨e, hr, -, he⟩ | ⟨s, report, hr, hok, hdb⟩
  · rw [he]
    rw [hr]
    rfl
  · rw [hok, hdb]
    rw [hr]
    exact congrArg (fun cs => Except.ok (onAll cs [])) (changes_positive hp [])

end Umd.Projections
