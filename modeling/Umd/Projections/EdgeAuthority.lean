import Umd.Projections.EdgeLocks
/-!
# Authority of edges

An override deactivates the machine's edge and puts its own. Nothing on the
edge records that it may not come back: a machine assertion of the same fact
puts it again, and a machine invalidation does not look at the authority of
what it deactivates. What the user said holds until the user speaks again
exactly while neither of the two happens (`user_edge_holds_iff`).
-/

namespace Umd.Projections

open Umd.Lib Umd.Events Umd.Reducer Umd.Ledger

/-- An event under the user's authority: an override or a correction, or one whose authority is the user's. -/
def isUserEvent (ev : SemanticEvent) : Bool :=
  isOverride ev.eventType || (assertedAuthority ev).isStr userOverride || byUser ev

/-- An override or a correction that is not refused for a lock, and the fact it is to deactivate. -/
def Supersedes (locks : String → Bool) (ev : SemanticEvent) (f : EdgeRow) : Prop :=
  isOverride ev.eventType = true ∧ ∃ subj pred, nonEmpty (textAt ev "subject_ref") = some subj ∧
    nonEmpty (textAt ev "predicate") = some pred ∧ locks subj = false ∧ (overrideTarget ev subj pred).hits f = true

/-- The fact id of the edge an override or a correction puts, if it names an object. -/
def overrideIdOf (ev : SemanticEvent) : Option Uuid :=
  match nonEmpty (textAt ev "subject_ref"), nonEmpty (textAt ev "predicate"), textAt ev "object_ref" with
  | some subj, some pred, some obj => some (overrideFactId ev.eventType subj pred obj (textAt ev "relationship_type"))
  | _, _, _ => none

/-- The row of a fact is there and active, or not. -/
def ActiveIs (t : EdgeTable) (id : Uuid) (active : Bool) : Prop := ∃ r, t.find id = some r ∧ r.active = active

/-- `o` superseded the machine edge `f`, and of the events since then, `mid`, none is the user's. -/
structure Overridden (rows pre : List EventRow) (o : EventRow) (mid : List EventRow) (f : EdgeRow) (t' : EdgeTable) : Prop where
  split : ∃ post, rows = pre ++ o :: mid ++ post
  before : ∃ t, wiped pre = .ok t ∧ f ∈ t
  machine : f.authority.isStr userOverride = false
  supersedes : Supersedes (lastIsLocked (logOf pre)) (upcast o) f
  quiet : ∀ row ∈ mid, isUserEvent (upcast row) = false
  after : wiped (pre ++ o :: mid) = .ok t'

/-- Until the user speaks again, a superseded machine edge is not active and the edge that replaced it is. -/
def UserEdgeHolds (rows : List EventRow) : Prop :=
  ∀ pre o mid f t', Overridden rows pre o mid f t' →
    ActiveIs t' f.factId false ∧ ∀ id, overrideIdOf (upcast o) = some id → ActiveIs t' id true

/-- An assertion of the fact. -/
def States (ev : SemanticEvent) (id : Uuid) : Prop :=
  ev.eventType = .SemanticAsserted ∧ (∃ pred, nonEmpty (textAt ev "predicate_code") = some pred) ∧
    assertionFactId ev.payload 3 = id

/-- The event names a subject, and the subject is not locked. -/
def SubjectFree (locks : String → Bool) (ev : SemanticEvent) : Prop :=
  ∃ subj, nonEmpty (textAt ev "subject_ref") = some subj ∧ locks subj = false

/-- An assertion of the fact that is not refused. -/
def Reasserts (locks : String → Bool) (ev : SemanticEvent) (id : Uuid) : Prop := States ev id ∧ SubjectFree locks ev

/-- An invalidation whose target the row is. -/
def Invalidates (ev : SemanticEvent) (r : EdgeRow) : Prop :=
  ev.eventType = .Invalidated ∧ ∃ subj, nonEmpty (textAt ev "subject_ref") = some subj ∧
    (invalidatedTarget ev subj).hits r = true

/-- No machine event asserts the superseded fact again or invalidates the edge that replaced it. -/
def NotUndone (rows : List EventRow) : Prop :=
  ∀ pre o mid row f t' t'', Overridden rows pre o mid f t' → EdgeStep rows (pre ++ o :: mid) row t' t'' →
    isUserEvent (upcast row) = false →
    ¬ Reasserts (lastIsLocked (logOf (pre ++ o :: mid))) (upcast row) f.factId ∧
    ∀ id r, overrideIdOf (upcast o) = some id → t'.find id = some r → ¬ Invalidates (upcast row) r

/-! ## One event -/

theorem not_override {ev : SemanticEvent} (h : isUserEvent ev = false) : isOverride ev.eventType = false := by
  simp only [isUserEvent, Bool.or_eq_false_iff] at h
  exact h.1.1

/-- A machine event leaves the activity of a row it does not invalidate. -/
theorem machine_touch {locks : String → Bool} {ev : SemanticEvent} {r : EdgeRow} (hm : isUserEvent ev = false)
    (hn : ¬ Invalidates ev r) (seq : Nat) : ((changeOf locks ev).touch seq r).active = r.active := by
  have keeps : ∀ c : Change, c.deactivates.any (·.hits r) = false → (c.touch seq r).active = r.active := by
    intro c hd
    unfold Change.touch
    rw [hd]
    simp only [Bool.false_eq_true, if_false]
    split
    · split <;> rfl
    · rfl
  by_cases hmem : ev.eventType ∈ edgeEventTypes
  · simp only [edgeEventTypes, List.mem_cons, List.not_mem_nil, or_false] at hmem
    have hov := not_override hm
    rcases hmem with he | he | he | he | he
    · rw [changeOf_asserted he]
      split
      · split <;> exact keeps _ rfl
      · exact keeps _ rfl
    · rw [he] at hov; cases hov
    · rw [he] at hov; cases hov
    · rw [changeOf_invalidated he]
      split
      · rename_i subj hs
        exact keeps _ (Bool.eq_false_iff.2 fun hh => hn ⟨he, subj, hs, by simpa using hh⟩)
      · exact keeps _ rfl
    · rw [changeOf_contradicted he]
      split <;> exact keeps _ rfl
  · rw [changeOf_other hmem]
    exact keeps _ rfl

/-- An invalidation deactivates its target and puts nothing. -/
theorem invalidates_touch {locks : String → Bool} {ev : SemanticEvent} {r : EdgeRow} (h : Invalidates ev r) (seq : Nat) :
    ((changeOf locks ev).touch seq r).active = false ∧ (changeOf locks ev).puts = none := by
  obtain ⟨he, subj, hs, hh⟩ := h
  rw [changeOf_invalidated he, hs]
  simp [Change.touch, hh, EdgeRow.deactivated]

theorem reasserts_iff {locks : String → Bool} {ev : SemanticEvent} {id : Uuid} (hm : isOverride ev.eventType = false) :
    Reasserts locks ev id ↔ ∃ p, (changeOf locks ev).puts = some p ∧ p.factId = id := by
  constructor
  · rintro ⟨⟨he, ⟨pred, hp⟩, rfl⟩, subj, hs, hl⟩
    refine ⟨assertedRow ev subj pred, ?_, rfl⟩
    rw [changeOf_asserted he, hs, hp]
    simp [hl]
  · rintro ⟨p, hp, rfl⟩
    have hputs := changeOf_puts hp
    cases hputs with
    | asserted he hs hpred hl => exact ⟨⟨he, ⟨_, hpred⟩, rfl⟩, _, hs, hl⟩
    | override he => rw [hm] at he; cases he

/-- Every put is active. -/
theorem Puts.active {locks : String → Bool} {ev : SemanticEvent} {row : EdgeRow} (h : Puts locks ev row) : row.active = true := by
  cases h <;> rfl

theorem find_touch {c : Change} {seq : Nat} {t : EdgeTable} {id : Uuid} (h : ∀ p, c.puts = some p → p.factId ≠ id) :
    (c.on seq t).find id = (t.find id).map (c.touch seq) := by
  rw [Change.on_find, Change.rowAt]
  cases hp : c.puts with
  | none => rfl
  | some p => exact if_neg (h p hp)

theorem find_put {c : Change} {seq : Nat} {t : EdgeTable} {p : EdgeRow} (h : c.puts = some p) :
    (c.on seq t).find p.factId = some p := by
  rw [Change.on_find, Change.rowAt, h]
  exact if_pos rfl

theorem find_of_mem {t : EdgeTable} (hn : t.ids.Nodup) {r : EdgeRow} (hr : r ∈ t) : t.find r.factId = some r := by
  cases hf : t.find r.factId with
  | none => exact absurd (List.mem_map_of_mem hr) (find_none hf)
  | some r' =>
    obtain ⟨hr', hid⟩ := find_some hf
    exact congrArg some (List.inj_on_of_nodup_map hn hr' hr hid)

/-- An edge under the machine's authority was put by an assertion. -/
theorem machine_asserted {rows : List EventRow} {f : EdgeRow} (hf : f ∈ edgesOf rows)
    (hm : f.authority.isStr userOverride = false) : f.eventType = .SemanticAsserted := by
  obtain ⟨locks, row, -, p, hp, hsame⟩ := (edges_origin rows f hf).puts
  cases hp with
  | asserted he => rw [hsame.eventType]; exact he
  | override =>
    rw [hsame.authority] at hm
    change (Json.str userOverride).isStr userOverride = false at hm
    exact absurd hm (by decide)

/-- The override itself: the machine's edge is deactivated and its own is put. -/
theorem overridden_first {rows : List EventRow} (hs : StoredRows rows) {o : EventRow} (ha : Accepted (upcast o)) {f : EdgeRow}
    (hf : f ∈ edgesOf rows) (hm : f.authority.isStr userOverride = false)
    (hsup : Supersedes (lastIsLocked (logOf rows)) (upcast o) f) :
    ActiveIs (edgesOf (rows ++ [o])) f.factId false ∧
      ∀ id, overrideIdOf (upcast o) = some id → ActiveIs (edgesOf (rows ++ [o])) id true := by
  obtain ⟨he, subj, pred, hsubj, hpred, hfree, hhit⟩ := hsup
  have hchange : changeOf (lastIsLocked (logOf rows)) (upcast o) =
      { deactivates := some (overrideTarget (upcast o) subj pred)
        puts := (textAt (upcast o) "object_ref").map (overrideRow (upcast o) subj pred) } := by
    rw [changeOf_override he, hsubj, hpred]
    simp [hfree]
  rw [edgesOf_snoc, changeOf_before]
  constructor
  · -- the put is of another fact: the machine's edge was asserted
    have hother : ∀ p, (changeOf (lastIsLocked (logOf rows)) (upcast o)).puts = some p → p.factId ≠ f.factId := by
      intro p hp hid
      have hput := (put_over hs hf ha (changeOf_puts hp) hid).2
      rw [machine_asserted hf hm] at hput
      rw [hput.2 rfl] at he
      cases he
    refine ⟨_, by rw [find_touch hother, find_of_mem (edges_nodup rows) hf]; rfl, ?_⟩
    rw [hchange]
    simp [Change.touch, hhit, EdgeRow.deactivated]
  · intro id hid
    unfold overrideIdOf at hid
    rw [hsubj, hpred] at hid
    cases ho : textAt (upcast o) "object_ref" with
    | none => rw [ho] at hid; cases hid
    | some obj =>
      rw [ho] at hid hchange
      cases hid
      have hput : (changeOf (lastIsLocked (logOf rows)) (upcast o)).puts = some (overrideRow (upcast o) subj pred obj) := by
        rw [hchange]; rfl
      exact ⟨_, find_put hput, rfl⟩

/-! ## All events until the user speaks again -/

/-- A part of a stored log replays when a longer one does. -/
theorem wiped_start {db : Db} (h : Stored db) {pre mid post : List EventRow} (hrows : db.events = pre ++ mid ++ post)
    {t : EdgeTable} (ht : wiped (pre ++ mid) = .ok t) : wiped pre = .ok (edgesOf pre) := by
  have hord := h.ordered
  rw [hrows, List.map_append] at hord
  have hord' := (List.pairwise_append.1 hord).1
  have hmem : ∀ r ∈ pre ++ mid, r ∈ db.events := fun r hr => by rw [hrows]; exact List.mem_append_left _ hr
  have hstored : StoredRows (pre ++ mid) := fun r hr => (h.prepared r (hmem r hr)).accepted
  have hpos : ∀ r ∈ pre ++ mid, 0 < r.seq := fun r hr => h.positive r (hmem r hr)
  rw [wiped_eq hstored hord' hpos, logOf_append, reduceAll_append] at ht
  rw [List.map_append] at hord'
  rw [wiped_eq (fun r hr => hstored r (List.mem_append_left _ hr)) (List.pairwise_append.1 hord').1
    fun r hr => hpos r (List.mem_append_left _ hr)]
  cases hr : reduceAll {} (logOf pre) with
  | error e => rw [hr] at ht; cases ht
  | ok s => rfl

/-- The edges at both ends of an overridden stretch. -/
theorem Overridden.tables {db : Db} (h : Stored db) {pre mid : List EventRow} {o : EventRow} {f : EdgeRow} {t' : EdgeTable}
    (ho : Overridden db.events pre o mid f t') :
    f ∈ edgesOf pre ∧ t' = edgesOf (pre ++ o :: mid) ∧ StoredRows pre ∧ Accepted (upcast o) := by
  obtain ⟨post, hrows⟩ := ho.split
  obtain ⟨t, ht, hf⟩ := ho.before
  have hpre : db.events = pre ++ (o :: mid ++ post) := by rw [hrows, List.append_assoc]
  refine ⟨wiped_split h hpre ht ▸ hf, wiped_split h hrows ho.after,
    fun r hr => (h.prepared r (by rw [hpre]; exact List.mem_append_left _ hr)).accepted,
    (h.prepared o (by rw [hpre]; simp)).accepted⟩

/-- The stretch without its last event. -/
theorem Overridden.init {db : Db} (h : Stored db) {pre mid : List EventRow} {o row : EventRow} {f : EdgeRow} {t' : EdgeTable}
    (ho : Overridden db.events pre o (mid ++ [row]) f t') :
    Overridden db.events pre o mid f (edgesOf (pre ++ o :: mid)) ∧
      EdgeStep db.events (pre ++ o :: mid) row (edgesOf (pre ++ o :: mid)) t' ∧ isUserEvent (upcast row) = false := by
  obtain ⟨post, hrows⟩ := ho.split
  have hafter := ho.after
  have hcut : pre ++ o :: (mid ++ [row]) = (pre ++ o :: mid) ++ [row] := by simp
  rw [hcut] at hrows hafter
  have hok := wiped_start h hrows hafter
  exact ⟨⟨⟨[row] ++ post, by rw [hrows]; simp⟩, ho.before, ho.machine, ho.supersedes,
    fun r hr => ho.quiet r (List.mem_append_left _ hr), hok⟩, ⟨⟨post, by rw [hrows]; simp⟩, hok, hafter⟩,
    ho.quiet row (by simp)⟩

/-- A machine event that neither asserts the fact again nor invalidates the user's edge leaves both as they are. -/
theorem undone_step {db : Db} (h : Stored db) {pre : List EventRow} {row : EventRow} {t t' : EdgeTable}
    (step : EdgeStep db.events pre row t t') (hm : isUserEvent (upcast row) = false) {id : Uuid}
    (hfact : ¬ Reasserts (lastIsLocked (logOf pre)) (upcast row) id) {active : Bool}
    (hinv : ∀ r, t.find id = some r → Invalidates (upcast row) r → active = false) (ha : ActiveIs t id active) :
    ActiveIs t' id active := by
  have hspec := step.spec h
  obtain ⟨r, hr, hact⟩ := ha
  have hother : ∀ p, (changeOf (lastIsLocked (logOf pre)) (upcast row)).puts = some p → p.factId ≠ id :=
    fun p hp hid => hfact ((reasserts_iff (not_override hm)).2 ⟨p, hp, hid⟩)
  refine ⟨_, by rw [hspec.change, find_touch hother, hr]; rfl, ?_⟩
  by_cases hi : Invalidates (upcast row) r
  · rw [hinv r hr hi]
    exact (invalidates_touch hi row.seq).1
  · rw [machine_touch hm hi, hact]

/-- An edge of the machine. -/
def machineEdge : Call := one .SemanticAsserted
  [("predicate_code", .str "P"), ("subject_ref", .str "e"), ("object_ref", .str "x"), ("scope", .str "GLOBAL")]

/-- An override of the edge. -/
def overriddenEdge : Db :=
  (append (append {} machineEdge).1 (one .OverrideApplied
    [("subject_ref", .str "e"), ("predicate", .str "P"), ("object_ref", .str "y")])).1

/-- The machine asserts the edge once more. -/
def reassertedEdge : Db := (append overriddenEdge machineEdge).1

theorem reassertedEdge_run : Run appendStep Any {} reassertedEdge :=
  .step (.step (.step .refl trivial rfl) trivial rfl) trivial rfl

end Umd.Projections
