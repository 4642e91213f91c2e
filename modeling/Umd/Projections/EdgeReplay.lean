import Umd.Lib.Steps
import Umd.Storage.Appended
import Umd.Projections.EdgeFold
/-!
# Re-applied edges

Events that are applied once more, over the rows they left, leave the rows as
they are: the last put of a fact resets its row, and a row without a put keeps
what the deactivations and marks made of it. So an incremental run ends with
the rows of a wiping run, wherever its checkpoint was put back to.
-/

namespace Umd.Projections

open Umd.Lib Umd.Events Umd.Reducer Umd.Ledger

/-! ## Merged refs -/

theorem mem_addTexts {x : String} {refs : List String} : ∀ {merged : List String},
    x ∈ addTexts merged refs ↔ x ∈ merged ∨ x ∈ refs := by
  induction refs with
  | nil => intro merged; simp [addTexts]
  | cons y ys ih =>
    intro merged
    change x ∈ addTexts (if y ∈ merged then merged else merged ++ [y]) ys ↔ _
    rw [ih]
    split
    · rename_i hy
      constructor
      · rintro (h | h)
        · exact .inl h
        · exact .inr (List.mem_cons_of_mem _ h)
      · rintro (h | h)
        · exact .inl h
        · rcases List.mem_cons.1 h with rfl | h
          · exact .inl hy
          · exact .inr h
    · simp [or_assoc]

theorem nodup_addTexts {refs : List String} : ∀ {merged : List String}, merged.Nodup → (addTexts merged refs).Nodup := by
  induction refs with
  | nil => exact fun h => h
  | cons y ys ih =>
    intro merged h
    refine @ih (if y ∈ merged then merged else merged ++ [y]) ?_
    split
    · exact h
    · rename_i hy
      exact List.nodup_append.2 ⟨h, by simp, by rintro a ha b hb rfl; exact hy (List.mem_singleton.1 hb ▸ ha)⟩

/-- Refs that are there add nothing. -/
theorem addTexts_known {refs merged : List String} (h : ∀ x ∈ refs, x ∈ merged) : addTexts merged refs = merged := by
  induction refs with
  | nil => rfl
  | cons y ys ih =>
    change addTexts (if y ∈ merged then merged else merged ++ [y]) ys = _
    rw [if_pos (h y (by simp)), ih fun x hx => h x (List.mem_cons_of_mem _ hx)]

theorem addTexts_fresh {refs : List String} : ∀ {merged : List String}, (merged ++ refs).Nodup →
    addTexts merged refs = merged ++ refs := by
  induction refs with
  | nil => intro merged _; simp [addTexts]
  | cons y ys ih =>
    intro merged h
    have hy : y ∉ merged := fun hm => (List.nodup_append.1 h).2.2 y hm y (by simp) rfl
    change addTexts (if y ∈ merged then merged else merged ++ [y]) ys = _
    rw [if_neg hy, ih (by simpa using h)]
    simp

/-! ## One row -/

/-- A target or a mark of the change hits the row. -/
def Change.hits (c : Change) (r : EdgeRow) : Bool := c.deactivates.any (·.hits r) || c.marks.any (·.1.hits r)

def EdgeRow.stamped (r : EdgeRow) (n : Nat) : EdgeRow := { r with ledgerSeq := n }

/-- The changes of a row that none of them puts. -/
def touchAll (cs : List (Nat × Change)) (r : EdgeRow) : EdgeRow := cs.foldl (fun r c => c.2.touch c.1 r) r

/-- The row has what the change would make of it, but for its `ledger_seq`. -/
structure Absorbs (r : EdgeRow) (c : Change) : Prop where
  kept : c.deactivates.any (·.hits r) = false
  marked : ∀ target refs, c.marks = some (target, refs) → target.hits r = true →
    r.state = .str "CONFLICTING" ∧ ∃ ys : List String, ys.Nodup ∧ r.contradictionRefs = .arr (ys.map .str) ∧ ∀ x ∈ refs, x ∈ ys

theorem absorbs_inactive {r : EdgeRow} (h : r.active = false) (c : Change) : Absorbs r c :=
  ⟨any_hits_inactive h _, fun target _ _ hh => by rw [hits_inactive h] at hh; cases hh⟩

/-- The three things a change can do to a row. -/
theorem touch_cases (c : Change) (n : Nat) (r : EdgeRow) :
    (c.touch n r = r.deactivated n ∧ c.deactivates.any (·.hits r) = true) ∨
    (∃ target refs, c.marks = some (target, refs) ∧ target.hits r = true ∧ c.deactivates.any (·.hits r) = false ∧
      c.touch n r = r.conflicting ((r.mergedTexts refs).map .str) n) ∨
    (c.touch n r = r ∧ c.hits r = false) := by
  unfold Change.touch Change.hits
  cases hd : c.deactivates.any (·.hits r) with
  | true => exact .inl ⟨rfl, rfl⟩
  | false =>
    cases hm : c.marks with
    | none => exact .inr (.inr ⟨rfl, rfl⟩)
    | some m =>
      obtain ⟨target, refs⟩ := m
      by_cases hh : target.hits r = true
      · exact .inr (.inl ⟨target, refs, rfl, hh, rfl, by simp [hh]⟩)
      · exact .inr (.inr ⟨by simp [hh], by simpa using hh⟩)

theorem nodup_mergedTexts (r : EdgeRow) (refs : List String) : (r.mergedTexts refs).Nodup :=
  nodup_addTexts (nodup_addTexts .nil)

/-- A change is absorbed by the row it leaves. -/
theorem absorbs_touch (c : Change) (n : Nat) (r : EdgeRow) : Absorbs (c.touch n r) c := by
  rcases touch_cases c n r with ⟨ht, -⟩ | ⟨target, refs, hm, hh, hd, ht⟩ | ⟨ht, hn⟩
  · rw [ht]
    exact absorbs_inactive rfl c
  · rw [ht]
    refine ⟨hd, fun target' refs' hm' _ => ?_⟩
    rw [hm] at hm'
    cases hm'
    exact ⟨rfl, _, nodup_mergedTexts r refs, rfl, fun x hx => mem_addTexts.2 (.inr hx)⟩
  · rw [ht]
    simp only [Change.hits, Bool.or_eq_false_iff] at hn
    refine ⟨hn.1, fun target refs hm hh => ?_⟩
    rw [hm] at hn
    rw [show target.hits r = false from hn.2] at hh
    cases hh

/-- What a row has absorbed it keeps. -/
theorem Absorbs.touch {r : EdgeRow} {c : Change} (h : Absorbs r c) (c' : Change) (n : Nat) : Absorbs (c'.touch n r) c := by
  rcases touch_cases c' n r with ⟨ht, -⟩ | ⟨target', refs', -, -, -, ht⟩ | ⟨ht, -⟩
  · rw [ht]
    exact absorbs_inactive rfl c
  · rw [ht]
    refine ⟨h.kept, fun target refs hm hh => ⟨rfl, _, nodup_mergedTexts r refs', rfl, fun x hx => ?_⟩⟩
    obtain ⟨-, ys, -, hys, hsub⟩ := h.marked target refs hm hh
    rw [EdgeRow.mergedTexts, hys, texts_map]
    exact mem_addTexts.2 (.inl (mem_addTexts.2 (.inr (hsub x hx))))
  · rw [ht]
    exact h

/-- A change that is absorbed only moves the `ledger_seq`. -/
theorem touch_absorbed {r : EdgeRow} {c : Change} (h : Absorbs r c) (n : Nat) :
    c.touch n r = r.stamped (if c.hits r then n else r.ledgerSeq) := by
  rcases touch_cases c n r with ⟨ht, hh⟩ | ⟨target, refs, hm, hh, -, ht⟩ | ⟨ht, hn⟩
  · rw [h.kept] at hh
    cases hh
  · obtain ⟨hstate, ys, hnd, hys, hsub⟩ := h.marked target refs hm hh
    have hmerge : r.mergedTexts refs = ys := by
      rw [EdgeRow.mergedTexts, hys, texts_map, @addTexts_fresh ys [] (by simpa using hnd), List.nil_append,
        addTexts_known hsub]
    have hhit : c.hits r = true := by simp [Change.hits, hm, hh]
    rw [ht, hmerge, hhit, if_pos rfl, EdgeRow.conflicting, EdgeRow.stamped, ← hys, ← hstate]
  · rw [ht, hn]
    rfl

/-! ## A row over a log -/

/-- The fields a target reads. -/
structure SameFact (r r' : EdgeRow) : Prop where
  active : r'.active = r.active
  subjectRef : r'.subjectRef = r.subjectRef
  predicate : r'.predicate = r.predicate
  scope : r'.scope = r.scope
  derivation : r'.derivation = r.derivation
  objectRef : r'.objectRef = r.objectRef
  factId : r'.factId = r.factId

theorem SameFact.refl (r : EdgeRow) : SameFact r r := ⟨rfl, rfl, rfl, rfl, rfl, rfl, rfl⟩

theorem SameFact.hits {r r' : EdgeRow} (h : SameFact r r') (c : Target) : c.hits r' = c.hits r := by
  unfold Target.hits
  rw [h.active, h.subjectRef, h.predicate, h.scope, h.derivation, h.objectRef, h.factId]

theorem SameFact.change {r r' : EdgeRow} (h : SameFact r r') (c : Change) : c.hits r' = c.hits r := by
  unfold Change.hits
  rw [show (fun x : Target => x.hits r') = fun x => x.hits r from funext h.hits,
    show (fun x : Target × List String => x.1.hits r') = fun x => x.1.hits r from funext fun x => h.hits x.1]

/-- A row that a change leaves active is the same fact. -/
theorem touch_active {c : Change} {n : Nat} {r : EdgeRow} (h : (c.touch n r).active = true) :
    SameFact r (c.touch n r) ∧ (c.touch n r).ledgerSeq = if c.hits r then n else r.ledgerSeq := by
  rcases touch_cases c n r with ⟨ht, -⟩ | ⟨target, refs, hm, hh, -, ht⟩ | ⟨ht, hn⟩
  · rw [ht] at h
    cases h
  · have hhit : c.hits r = true := by simp [Change.hits, hm, hh]
    rw [ht, hhit]
    exact ⟨⟨rfl, rfl, rfl, rfl, rfl, rfl, rfl⟩, rfl⟩
  · rw [ht, hn]
    exact ⟨.refl r, rfl⟩

theorem touchAll_inactive {r : EdgeRow} (h : r.active = false) (cs : List (Nat × Change)) : touchAll cs r = r := by
  induction cs with
  | nil => rfl
  | cons c cs ih =>
    change touchAll cs (c.2.touch c.1 r) = r
    rw [touch_inactive h, ih]

/-- The seq of the last change that hits a row, or `n`. -/
def stamp (cs : List (Nat × Change)) (r : EdgeRow) (n : Nat) : Nat := cs.foldl (fun n c => if c.2.hits r then c.1 else n) n

theorem stamp_cases (cs : List (Nat × Change)) (r : EdgeRow) : ∀ n m,
    stamp cs r n = stamp cs r m ∨ stamp cs r n = n ∧ stamp cs r m = m := by
  induction cs with
  | nil => exact fun n m => .inr ⟨rfl, rfl⟩
  | cons c cs ih =>
    intro n m
    change stamp cs r (if c.2.hits r then c.1 else n) = stamp cs r (if c.2.hits r then c.1 else m) ∨ _
    split
    · exact .inl rfl
    · rename_i hn
      rcases ih n m with h | ⟨h, h'⟩
      · exact .inl h
      · exact .inr ⟨by simpa [stamp, hn] using h, by simpa [stamp, hn] using h'⟩

theorem stamp_stamp (cs : List (Nat × Change)) (r : EdgeRow) (n : Nat) : stamp cs r (stamp cs r n) = stamp cs r n := by
  rcases stamp_cases cs r (stamp cs r n) n with h | ⟨h, -⟩ <;> exact h

/-- The `ledger_seq` of a row that stays active. -/
theorem touchAll_stamp {cs : List (Nat × Change)} : ∀ {r : EdgeRow}, (touchAll cs r).active = true →
    (touchAll cs r).ledgerSeq = stamp cs (touchAll cs r) r.ledgerSeq ∧ SameFact r (touchAll cs r) := by
  induction cs with
  | nil => exact fun _ => ⟨rfl, .refl _⟩
  | cons c cs ih =>
    intro r h
    change (touchAll cs (c.2.touch c.1 r)).active = true at h
    change (touchAll cs (c.2.touch c.1 r)).ledgerSeq = stamp (c :: cs) (touchAll cs (c.2.touch c.1 r)) r.ledgerSeq ∧
      SameFact r (touchAll cs (c.2.touch c.1 r))
    obtain ⟨hseq, hsame⟩ := ih h
    have hact : (c.2.touch c.1 r).active = true := hsame.active ▸ h
    obtain ⟨hfirst, hstamp⟩ := touch_active hact
    have hr : SameFact r (touchAll cs (c.2.touch c.1 r)) :=
      ⟨hsame.active.trans hfirst.active, hsame.subjectRef.trans hfirst.subjectRef, hsame.predicate.trans hfirst.predicate,
        hsame.scope.trans hfirst.scope, hsame.derivation.trans hfirst.derivation, hsame.objectRef.trans hfirst.objectRef,
        hsame.factId.trans hfirst.factId⟩
    refine ⟨?_, hr⟩
    rw [hseq, hstamp]
    simp only [stamp, List.foldl_cons, hr.change]

theorem touchAll_absorbs {cs : List (Nat × Change)} : ∀ {r : EdgeRow}, ∀ c ∈ cs, Absorbs (touchAll cs r) c.2 := by
  induction cs with
  | nil => exact fun _ h => absurd h List.not_mem_nil
  | cons c cs ih =>
    intro r c' hc'
    change Absorbs (touchAll cs (c.2.touch c.1 r)) c'.2
    rcases List.mem_cons.1 hc' with rfl | hc'
    · -- absorbed by the first touch, and kept by the others
      have hkeep : ∀ (cs : List (Nat × Change)) (r : EdgeRow), Absorbs r c'.2 → Absorbs (touchAll cs r) c'.2 := by
        intro cs
        induction cs with
        | nil => exact fun _ h => h
        | cons c cs ih => exact fun r h => ih _ (h.touch c.2 c.1)
      exact hkeep cs _ (absorbs_touch c'.2 c'.1 r)
    · exact ih c' hc'

theorem touchAll_absorbed {cs : List (Nat × Change)} : ∀ {r : EdgeRow}, (∀ c ∈ cs, Absorbs r c.2) →
    touchAll cs r = r.stamped (stamp cs r r.ledgerSeq) := by
  induction cs with
  | nil => exact fun _ => rfl
  | cons c cs ih =>
    intro r h
    change touchAll cs (c.2.touch c.1 r) = _
    rw [touch_absorbed (h c (by simp))]
    have hnext : ∀ n, ∀ c' ∈ cs, Absorbs (r.stamped n) c'.2 := fun n c' hc' =>
      have hc := h c' (List.mem_cons_of_mem _ hc')
      ⟨hc.kept, hc.marked⟩
    rw [ih (hnext _)]
    rfl

/-- **A row without puts: what is applied once more changes nothing.** -/
theorem touchAll_twice (cs : List (Nat × Change)) (r : EdgeRow) : touchAll cs (touchAll cs r) = touchAll cs r := by
  cases hact : (touchAll cs r).active with
  | false => exact touchAll_inactive hact cs
  | true =>
    obtain ⟨hseq, -⟩ := touchAll_stamp hact
    rw [touchAll_absorbed touchAll_absorbs, hseq, stamp_stamp, ← hseq]
    rfl

/-- The row of a fact over a log. -/
def rowAll (id : Uuid) (cs : List (Nat × Change)) (o : Option EdgeRow) : Option EdgeRow :=
  cs.foldl (fun o c => c.2.rowAt c.1 id o) o

theorem onAll_find (cs : List (Nat × Change)) : ∀ (t : EdgeTable) (id : Uuid), (onAll cs t).find id = rowAll id cs (t.find id) := by
  induction cs with
  | nil => exact fun _ _ => rfl
  | cons c cs ih =>
    intro t id
    change (onAll cs (c.2.on c.1 t)).find id = _
    rw [ih, Change.on_find]
    rfl

/-- The change puts the row of the fact. -/
def Change.putsAt (c : Change) (id : Uuid) : Bool := c.puts.any (·.factId = id)

theorem rowAll_unput {id : Uuid} {cs : List (Nat × Change)} (h : ∀ c ∈ cs, c.2.putsAt id = false) :
    ∀ o, rowAll id cs o = o.map (touchAll cs) := by
  induction cs with
  | nil => intro o; cases o <;> rfl
  | cons c cs ih =>
    intro o
    have hc : ∀ o, c.2.rowAt c.1 id o = o.map (c.2.touch c.1) := by
      intro o
      have := h c (by simp)
      unfold Change.putsAt at this
      unfold Change.rowAt
      cases hp : c.2.puts with
      | none => rfl
      | some row =>
        rw [hp] at this
        simp only [Option.any_some, decide_eq_false_iff_not] at this
        exact if_neg this
    change rowAll id cs (c.2.rowAt c.1 id o) = _
    rw [hc, ih fun c hc => h c (List.mem_cons_of_mem _ hc)]
    cases o <;> rfl

/-- Either no change puts the row, or the row does not depend on what was there. -/
theorem rowAll_cases (id : Uuid) (cs : List (Nat × Change)) :
    (∀ c ∈ cs, c.2.putsAt id = false) ∨ ∀ o o', rowAll id cs o = rowAll id cs o' := by
  induction cs with
  | nil => exact .inl (by simp)
  | cons c cs ih =>
    rcases ih with h | h
    · cases hp : c.2.putsAt id with
      | false =>
        refine .inl fun c' hc' => ?_
        rcases List.mem_cons.1 hc' with rfl | hc'
        · exact hp
        · exact h c' hc'
      | true =>
        refine .inr fun o o' => congrArg (rowAll id cs) ?_
        unfold Change.putsAt at hp
        unfold Change.rowAt
        cases hputs : c.2.puts with
        | none => rw [hputs] at hp; cases hp
        | some row =>
          rw [hputs] at hp
          simp only [Option.any_some, decide_eq_true_eq] at hp
          simp only [hputs, if_pos hp]
    · exact .inr fun o o' => h _ _

theorem rowAll_twice (id : Uuid) (cs : List (Nat × Change)) (o : Option EdgeRow) :
    rowAll id cs (rowAll id cs o) = rowAll id cs o := by
  rcases rowAll_cases id cs with h | h
  · rw [rowAll_unput h, rowAll_unput h, Option.map_map, show touchAll cs ∘ touchAll cs = touchAll cs from
      funext (touchAll_twice cs)]
  · exact h _ _

/-! ## The table -/

theorem onAll_ids_mono {cs : List (Nat × Change)} : ∀ {t : EdgeTable} {id : Uuid}, id ∈ t.ids → id ∈ (onAll cs t).ids := by
  induction cs with
  | nil => exact fun h => h
  | cons c cs ih =>
    intro t id h
    refine ih (t := c.2.on c.1 t) ?_
    rw [Change.on_ids]
    split
    · exact h
    · split
      · exact h
      · exact List.mem_append_left _ h

theorem onAll_ids_put {cs : List (Nat × Change)} : ∀ {t : EdgeTable}, ∀ c ∈ cs, ∀ row, c.2.puts = some row →
    row.factId ∈ (onAll cs t).ids := by
  induction cs with
  | nil => exact fun c h => absurd h List.not_mem_nil
  | cons c cs ih =>
    intro t c' hc' row hrow
    rcases List.mem_cons.1 hc' with rfl | hc'
    · refine @onAll_ids_mono cs (c'.2.on c'.1 t) _ ?_
      rw [Change.on_ids, hrow]
      dsimp only
      split
      · assumption
      · simp
    · exact ih c' hc' row hrow

theorem onAll_ids_known {cs : List (Nat × Change)} : ∀ {t : EdgeTable},
    (∀ c ∈ cs, ∀ row, c.2.puts = some row → row.factId ∈ t.ids) → (onAll cs t).ids = t.ids := by
  induction cs with
  | nil => exact fun _ => rfl
  | cons c cs ih =>
    intro t h
    have hids : (c.2.on c.1 t).ids = t.ids := by
      rw [Change.on_ids]
      split
      · rfl
      · rename_i row hp
        rw [if_pos (h c (by simp) row hp)]
    change (onAll cs (c.2.on c.1 t)).ids = _
    rw [ih (by rw [hids]; exact fun c hc => h c (List.mem_cons_of_mem _ hc)), hids]

/-- **Changes applied once more, over the table they left, leave it.** -/
theorem onAll_twice (cs : List (Nat × Change)) {t : EdgeTable} (h : t.ids.Nodup) : onAll cs (onAll cs t) = onAll cs t := by
  have hids : (onAll cs (onAll cs t)).ids = (onAll cs t).ids := onAll_ids_known (onAll_ids_put (t := t))
  refine EdgeTable.ext_find (hids ▸ onAll_nodup h) hids fun id => ?_
  rw [onAll_find, onAll_find, rowAll_twice]

/-! ## Runs beside appends -/

/-- The ledger, and the edge store with its drivers. -/
structure EdgeWorld where
  ledger : Db := {}
  replays : Replays EdgeTable := { db := { stores := [] } }

inductive EdgeAct where
  | append (call : Call)
  | run (driver : Nat) (wipe : Bool)
  /-- The checkpoint put back to an earlier position: what is past it is applied once more. -/
  | rewind (seq : Nat)

namespace EdgeWorld

/-- The log as the runs read it. -/
def publish (w : EdgeWorld) (ledger : Db) : EdgeWorld :=
  { ledger := ledger, replays := { w.replays with db := { w.replays.db with events := ledger.events } } }

def rewound (w : EdgeWorld) (seq : Nat) : EdgeWorld :=
  { w with replays := { w.replays with db := { w.replays.db with
      checkpoints := upd w.replays.db.checkpoints edgeProjection
        (some (((w.replays.db.checkpoints edgeProjection).getD {}).withApplied seq)) } } }

def step (w : EdgeWorld) : EdgeAct → Option EdgeWorld
  | .append call => some (w.publish (append w.ledger call).1)
  | .run i wipe => (w.replays.step (.run i edgeBuilder wipe)).map fun replays => { w with replays := replays }
  | .rewind seq => if seq ≤ w.replays.db.applied edgeProjection then some (w.rewound seq) else none

end EdgeWorld

/-- The edges are those of the log up to a point the checkpoint has not passed. -/
structure EdgesBuilt (w : EdgeWorld) : Prop where
  stored : Stored w.ledger
  published : w.replays.db.events = w.ledger.events
  running : ((w.replays.db.checkpoints edgeProjection).getD {}).pauseReason = none
  drivers : ∀ i, (w.replays.drivers i).appliedSeq ≤ tailOf w.ledger.events
  applied : w.replays.db.applied edgeProjection ≤ tailOf w.ledger.events
  table : ∃ pre post, w.ledger.events = pre ++ post ∧ w.replays.db.stores = onAll (changes [] pre) [] ∧
    ∀ r ∈ post, w.replays.db.applied edgeProjection < r.seq

theorem stored_rows {db : Db} (h : Stored db) : StoredRows db.events := fun r hr => (h.prepared r hr).accepted

theorem nodup_nil : (EdgeTable.ids []).Nodup := .nil

/-- Of the changes of a log in seq order, those past a seq are the last ones. -/
theorem filter_past {rows : List EventRow} (ho : (rows.map (·.seq)).Pairwise (· < ·)) (pre : List EventRow) (n : Nat) :
    ∃ low high, rows = low ++ high ∧ (changes pre rows).filter (fun c => n < c.1) = changes (pre ++ low) high := by
  induction rows generalizing pre with
  | nil => exact ⟨[], [], rfl, rfl⟩
  | cons row rows ih =>
    rw [List.map_cons, List.pairwise_cons] at ho
    by_cases hlt : n < row.seq
    · refine ⟨[], row :: rows, rfl, ?_⟩
      rw [List.append_nil, List.filter_eq_self]
      intro c hc
      have hseq : c.1 ∈ (row :: rows).map (·.seq) := changes_seq pre (row :: rows) ▸ List.mem_map_of_mem hc
      rcases List.mem_cons.1 hseq with h | h
      · simpa [h] using hlt
      · have := ho.1 c.1 h
        simpa using Nat.lt_trans hlt this
    · obtain ⟨low, high, hrows, hfil⟩ := ih ho.2 (pre ++ [row])
      refine ⟨row :: low, high, by rw [hrows]; rfl, ?_⟩
      rw [changes, List.filter_cons_of_neg (by simpa using hlt), hfil]
      simp

/-- Applying what is past the checkpoint gives the edges of the whole log. -/
theorem EdgesBuilt.catchUp {w : EdgeWorld} (h : EdgesBuilt w) :
    onAll ((changes [] w.ledger.events).filter fun c => w.replays.db.applied edgeProjection < c.1) w.replays.db.stores =
      edgesOf w.ledger.events := by
  obtain ⟨pre, post, hev, ht, hpost⟩ := h.table
  have hord := h.stored.ordered
  rw [hev, List.map_append] at hord
  -- all of `post` is past the checkpoint, and of `pre` a last part
  have hall : (changes pre post).filter (fun c => w.replays.db.applied edgeProjection < c.1) = changes pre post := by
    rw [List.filter_eq_self]
    intro c hc
    obtain ⟨_, r, hr, rfl⟩ := mem_changes hc
    simpa using hpost r hr
  obtain ⟨low, high, hpre, hfil⟩ := filter_past (List.pairwise_append.1 hord).1 [] (w.replays.db.applied edgeProjection)
  rw [hev, edgesOf, changes_append, List.filter_append, List.nil_append, hall, hfil, ht, onAll_append, onAll_append]
  congr 1
  -- the part of `pre` is applied to what it left itself
  rw [hpre, changes_append, onAll_append, List.nil_append, onAll_twice _ (onAll_nodup nodup_nil)]

theorem EdgesBuilt.clean {w : EdgeWorld} (h : EdgesBuilt w) : w.replays.db.stores.Clean := by
  obtain ⟨pre, post, hev, ht, -⟩ := h.table
  rw [ht]
  have hpre : StoredRows pre := fun r hr => stored_rows h.stored r (by rw [hev]; exact List.mem_append_left _ hr)
  exact onAll_clean hpre (fun _ hc => hc) clean_nil

theorem EdgesBuilt.loaded {w : EdgeWorld} (h : EdgesBuilt w) : loadEvents w.ledger.events 0 = w.ledger.events :=
  loadEvents_ordered h.stored.ordered h.stored.positive

/-- What a run leaves: the edges of the whole log, or what the canonical fold raises. -/
theorem EdgesBuilt.run {w : EdgeWorld} (h : EdgesBuilt w) (i : Nat) (wipe : Bool) :
    built (runLocked edgeBuilder wipe false w.replays.db (w.replays.drivers i)) =
      (reduceAll {} (logOf w.ledger.events)).map fun _ => edgesOf w.ledger.events := by
  have hload : loadEvents w.replays.db.events 0 = w.replays.db.events := by rw [h.published]; exact h.loaded
  have hspec := (@run_edges wipe _ (w.replays.drivers i) h.running
    (by rw [h.published]; exact stored_rows h.stored) hload h.clean).outcome
  rw [h.published] at hspec
  unfold built
  rcases hspec with ⟨e, hr, -, he⟩ | ⟨s, report, hr, hok, hdb⟩
  · rw [he, hr]; rfl
  · rw [hok, hr, hdb]
    refine congrArg Except.ok ?_
    cases wipe with
    | false => exact h.catchUp
    | true => exact congrArg (onAll · []) (changes_positive h.stored.positive [])

theorem EdgesBuilt.init : EdgesBuilt {} where
  stored := .empty
  published := rfl
  running := rfl
  drivers := fun _ => Nat.zero_le _
  applied := Nat.zero_le _
  table := ⟨[], [], rfl, rfl, by simp⟩

theorem EdgesBuilt.append {w : EdgeWorld} (h : EdgesBuilt w) (call : Call) :
    EdgesBuilt (w.publish (Ledger.append w.ledger call).1) := by
  obtain ⟨new, hev, -, -, hnew⟩ := append_rows w.ledger call
  have hmono : tailOf w.ledger.events ≤ tailOf (Ledger.append w.ledger call).1.events := by
    rw [hev]
    exact tailOf_append_le ..
  obtain ⟨pre, post, hsplit, ht, hpost⟩ := h.table
  refine ⟨h.stored.append call, rfl, h.running, fun i => (h.drivers i).trans hmono, h.applied.trans hmono,
    pre, post ++ new, by simp [EdgeWorld.publish, hev, hsplit], ht, fun r hr => ?_⟩
  rcases List.mem_append.1 hr with hr | hr
  · exact hpost r hr
  · have htail := h.stored.tail_lt
    have happ : w.replays.db.applied edgeProjection ≤ tailOf w.ledger.events := h.applied
    have := (hnew r hr).1
    change w.replays.db.applied edgeProjection < r.seq
    omega

theorem EdgesBuilt.rewind {w : EdgeWorld} (h : EdgesBuilt w) {n : Nat} (hn : n ≤ w.replays.db.applied edgeProjection) :
    EdgesBuilt (w.rewound n) := by
  have happ : (w.rewound n).replays.db.applied edgeProjection = n := by
    simp [EdgeWorld.rewound, Projected.applied, ProjectionCheckpoint.withApplied]
  obtain ⟨pre, post, hsplit, ht, hpost⟩ := h.table
  refine ⟨h.stored, h.published, ?_, h.drivers, by rw [happ]; exact hn.trans h.applied, pre, post, hsplit, ht, fun r hr => ?_⟩
  · simpa [EdgeWorld.rewound, ProjectionCheckpoint.withApplied] using h.running
  · rw [happ]
    exact Nat.lt_of_le_of_lt hn (hpost r hr)

theorem EdgesBuilt.step {w w' : EdgeWorld} {a : EdgeAct} (h : EdgesBuilt w) (hs : w.step a = some w') : EdgesBuilt w' := by
  cases a with
  | append call => cases hs; exact h.append call
  | rewind n =>
    simp only [EdgeWorld.step] at hs
    split at hs
    · cases hs; exact h.rewind ‹_›
    · cases hs
  | run i wipe =>
    have hload : loadEvents w.replays.db.events 0 = w.replays.db.events := by rw [h.published]; exact h.loaded
    have hstored : StoredRows w.replays.db.events := by rw [h.published]; exact stored_rows h.stored
    have hspec := (@run_edges wipe _ (w.replays.drivers i) h.running hstored hload h.clean).outcome
    have hbuilt := h.run i wipe
    have hbound := (@runLocked_spec _ edgeBuilder wipe w.replays.db (w.replays.drivers i) rfl h.running).bounded _
      (h.drivers i) (by rw [h.published])
    simp only [EdgeWorld.step, Replays.step, Option.map_some, Option.some.injEq] at hs
    generalize hr : runLocked edgeBuilder wipe false w.replays.db (w.replays.drivers i) = r at hs hspec hbuilt hbound
    subst hs
    have hdrivers : ∀ j, (upd w.replays.drivers i r.2.1 j).appliedSeq ≤ tailOf w.ledger.events := fun j => by
      by_cases hj : j = i
      · subst hj; rw [upd_self]; exact hbound
      · rw [upd_ne _ _ hj]; exact h.drivers j
    rcases hspec with ⟨e, -, hdb, -⟩ | ⟨s, report, hfold, hok, hdb⟩
    · refine ⟨h.stored, ?_, ?_, hdrivers, ?_, ?_⟩ <;> simp only [hdb]
      · exact h.published
      · exact h.running
      · exact h.applied
      · exact h.table
    · have hstores : r.1.stores = edgesOf w.ledger.events := by
        rw [h.published] at hfold
        rw [built, hok, hfold] at hbuilt
        exact Except.ok.inj hbuilt
      have happ : r.1.applied edgeProjection = r.2.1.appliedSeq := by
        rw [hdb]
        simp [Projected.applied, ProjectionCheckpoint.withApplied]
      refine ⟨h.stored, ?_, ?_, hdrivers, ?_, w.ledger.events, [], by simp, hstores, by simp⟩
      · rw [hdb]; exact h.published
      · rw [hdb]
        simpa [ProjectionCheckpoint.withApplied] using h.running
      · exact happ ▸ hbound

/-- **However the edges were built, an incremental run ends as a single wiping
run over the whole log does**: after any appends, runs of any drivers and
re-applied events, it leaves the same rows, and it raises only what that run
raises. -/
theorem incremental_eq_wiped {w : EdgeWorld} (hw : Run EdgeWorld.step Any {} w) (i : Nat) :
    built (runLocked edgeBuilder false false w.replays.db (w.replays.drivers i)) = wiped w.ledger.events := by
  have h : EdgesBuilt w := hw.inv EdgesBuilt .init fun _ _ _ hi _ hs => hi.step hs
  rw [h.run i false, wiped_eq (stored_rows h.stored) h.stored.ordered h.stored.positive]

/-- An asserted edge is built, its assertion applied once more with an override that follows. -/
theorem incremental_eq_wiped_again :
    ∃ w : EdgeWorld, w.ledger.events.length = 2 ∧ w.replays.db.stores.length = 1 ∧
      built (runLocked edgeBuilder false false w.replays.db (w.replays.drivers 1)) = wiped w.ledger.events :=
  ⟨_, rfl, rfl, incremental_eq_wiped
    (.step (a := .append (one .OverrideApplied [("subject_ref", .str "e"), ("predicate", .str "P"), ("object_ref", .str "o")]))
      (.step (a := .rewind 0)
        (.step (a := .run 0 false)
          (.step (a := .append (one .SemanticAsserted
            [("predicate_code", .str "P"), ("subject_ref", .str "e"), ("scope", .str "GLOBAL")]))
            .refl trivial rfl) trivial rfl) trivial rfl) trivial rfl) 1⟩

end Umd.Projections
