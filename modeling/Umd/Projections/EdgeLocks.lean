import Umd.Lib.Steps
import Umd.Projections.EdgeFacts
/-!
# Edges of a locked entity

An assertion, an override and a correction leave the edges of a locked entity.
An invalidation and a contradiction do not look at the lock: a lock keeps its
edges exactly while neither of the two hits one of them
(`locked_edges_kept_iff`).
-/

namespace Umd.Projections

open Umd.Lib Umd.Events Umd.Reducer Umd.Ledger

/-- One event of a log, with the edges of a wiping run over the log before it and over the log with it. -/
structure EdgeStep (rows pre : List EventRow) (row : EventRow) (t t' : EdgeTable) : Prop where
  split : ∃ post, rows = pre ++ row :: post
  before : wiped pre = .ok t
  after : wiped (pre ++ [row]) = .ok t'

/-- A lock event is none of the events the edges come from. -/
theorem edge_not_lock {etype : EventType} (h : etype ∈ edgeEventTypes) : isLockEvent etype = false := by
  simp only [edgeEventTypes, List.mem_cons, List.not_mem_nil, or_false] at h
  rcases h with rfl | rfl | rfl | rfl | rfl <;> rfl

/-- The locks an edge event finds are those of the log before it. -/
theorem changeOf_before (pre : List EventRow) (row : EventRow) :
    changeOf (lastIsLocked (logOf (pre ++ [row]))) (upcast row) = changeOf (lastIsLocked (logOf pre)) (upcast row) := by
  by_cases he : (upcast row).eventType ∈ edgeEventTypes
  · congr 1
    funext ref
    rw [logOf_append, lastIsLocked_append, logOf_one]
    split
    · simp [lockStep, edge_not_lock he]
    · rfl
  · rw [changeOf_other he, changeOf_other he]

/-- A part of a stored log replays to the rows its events leave. -/
theorem wiped_split {db : Db} (h : Stored db) {pre post : List EventRow} (hrows : db.events = pre ++ post)
    {t : EdgeTable} (ht : wiped pre = .ok t) : t = edgesOf pre := by
  have hord := h.ordered
  rw [hrows, List.map_append] at hord
  have hmem : ∀ r ∈ pre, r ∈ db.events := fun r hr => by rw [hrows]; exact List.mem_append_left _ hr
  rw [wiped_eq (fun r hr => (h.prepared r (hmem r hr)).accepted) (List.pairwise_append.1 hord).1
    fun r hr => h.positive r (hmem r hr)] at ht
  cases hr : reduceAll {} (logOf pre) with
  | error e => rw [hr] at ht; cases ht
  | ok s => rw [hr] at ht; exact (Except.ok.inj ht).symm

/-- What a step of a stored log does to the edges. -/
structure StepOf (pre : List EventRow) (row : EventRow) (t t' : EdgeTable) : Prop where
  edges : t = edgesOf pre
  change : t' = (changeOf (lastIsLocked (logOf pre)) (upcast row)).on row.seq t
  stored : StoredRows pre
  accepted : Accepted (upcast row)
  fresh : ∀ r ∈ t, r.ledgerSeq < row.seq

theorem EdgeStep.spec {db : Db} (h : Stored db) {pre : List EventRow} {row : EventRow} {t t' : EdgeTable}
    (hst : EdgeStep db.events pre row t t') : StepOf pre row t t' := by
  obtain ⟨⟨post, hrows⟩, hb, ha⟩ := hst
  have hedges := wiped_split h hrows hb
  have hafter := wiped_split h (by rw [hrows]; simp : db.events = (pre ++ [row]) ++ post) ha
  have hord := h.ordered
  rw [hrows, List.map_append, List.map_cons] at hord
  refine ⟨hedges, ?_, fun r hr => (h.prepared r (by rw [hrows]; exact List.mem_append_left _ hr)).accepted,
    (h.prepared row (by rw [hrows]; simp)).accepted, fun r hr => ?_⟩
  · rw [hafter, edgesOf_snoc, changeOf_before, hedges]
  · -- the row was last written at an event of the log before
    obtain ⟨row', hrow', hseq⟩ := (edges_origin pre r (hedges ▸ hr)).stamped
    rw [← hseq]
    exact (List.pairwise_append.1 hord).2.2 row'.seq (List.mem_map_of_mem hrow') row.seq (by simp)

/-! ## The edges of one entity -/

/-- The active edges of an entity. -/
def activeOf (ref : String) (t : EdgeTable) : EdgeTable := t.filter fun r => r.active && r.subjectRef == ref

/-- A row a change does not hit stays. -/
theorem touch_unhit {c : Change} {seq : Nat} {r : EdgeRow} (hd : c.deactivates.any (·.hits r) = false)
    (hm : c.marks.any (·.1.hits r) = false) : c.touch seq r = r := by
  unfold Change.touch
  rw [hd]
  cases hmarks : c.marks with
  | none => rfl
  | some m =>
    rw [hmarks, Option.any_some] at hm
    simp [hm]

/-- Nothing hits an inactive row. -/
theorem hits_active {c : Target} {r : EdgeRow} (h : c.hits r = true) : r.active = true ∧ r.subjectRef = c.subjectRef := by
  simp only [Target.hits, Bool.and_eq_true, beq_iff_eq] at h
  exact ⟨h.1.1.1.1.1, h.1.1.1.1.2⟩

/-- The active edges of an entity stay when the change hits none of them and puts none of its rows. -/
theorem activeOf_on {c : Change} {seq : Nat} {t : EdgeTable} {ref : String}
    (hputs : ∀ p, c.puts = some p → p.subjectRef ≠ ref ∧ ∀ r ∈ t, p.factId = r.factId → r.subjectRef ≠ ref)
    (htouch : ∀ r ∈ t, r.active = true → r.subjectRef = ref → c.touch seq r = r) :
    activeOf ref (c.on seq t) = activeOf ref t := by
  have hmap : activeOf ref (t.map (c.touch seq)) = activeOf ref t := by
    clear hputs
    induction t with
    | nil => rfl
    | cons r t ih =>
      have ih' := ih fun r' hr' => htouch r' (List.mem_cons_of_mem _ hr')
      simp only [activeOf, List.map_cons, List.filter_cons] at ih' ⊢
      by_cases ha : r.active = true
      · by_cases hs : r.subjectRef = ref
        · rw [htouch r (by simp) ha hs, ih']
        · have hs' : (c.touch seq r).subjectRef ≠ ref := by rw [(touch_sameEdge c seq r).subjectRef]; exact hs
          simp [hs, hs', ih']
      · rw [touch_inactive (by simpa using ha) c seq, ih']
  unfold Change.on
  cases hp : c.puts with
  | none => exact hmap
  | some p =>
    obtain ⟨hne, hover⟩ := hputs p hp
    dsimp only
    unfold EdgeTable.upsert
    split
    · rw [← hmap]
      -- the row put and the row it takes the place of are of other entities
      have hmem : ∀ r ∈ t.map (c.touch seq), r.factId = p.factId → r.subjectRef ≠ ref := by
        intro r hr hid
        obtain ⟨r₀, hr₀, rfl⟩ := List.mem_map.1 hr
        rw [touch_factId] at hid
        rw [(touch_sameEdge c seq r₀).subjectRef]
        exact hover r₀ hr₀ hid.symm
      generalize t.map (c.touch seq) = u at hmem
      clear hmap
      induction u with
      | nil => rfl
      | cons r u ih =>
        have ih' := ih fun r' hr' => hmem r' (List.mem_cons_of_mem _ hr')
        simp only [activeOf, List.map_cons, List.filter_cons] at ih' ⊢
        by_cases hid : r.factId = p.factId
        · simp [hid, hne, hmem r (by simp) hid, ih']
        · simp [hid, ih']
    · rw [← hmap]
      simp [activeOf, List.filter_append, hne]

/-! ## Locks -/

/-- While the last lock event of an entity is `Locked`, no event changes, activates or deactivates an edge of it. -/
def LockedEdgesKept (rows : List EventRow) : Prop :=
  ∀ pre row t t', EdgeStep rows pre row t t' →
    ∀ ref, lastIsLocked (logOf pre) ref = true → activeOf ref t' = activeOf ref t

/-- The event is an invalidation or a contradiction of the row. -/
def Strikes (ev : SemanticEvent) (r : EdgeRow) : Prop :=
  ∃ subj, nonEmpty (textAt ev "subject_ref") = some subj ∧
    ((ev.eventType = .Invalidated ∧ (invalidatedTarget ev subj).hits r = true) ∨
      (ev.eventType = .ContradictionRecorded ∧ ∃ pred, nonEmpty (textAt ev "predicate") = some pred ∧
        (contradictedTarget ev subj pred).hits r = true))

/-- No invalidation and no contradiction hits an active edge of an entity that is locked. -/
def LockedNotStruck (rows : List EventRow) : Prop :=
  ∀ pre row t t', EdgeStep rows pre row t t' →
    ∀ r ∈ t, Strikes (upcast row) r → lastIsLocked (logOf pre) r.subjectRef = false

/-- A row that is struck is written. -/
theorem strikes_touch {locks : String → Bool} {ev : SemanticEvent} {r : EdgeRow} (h : Strikes ev r) (seq : Nat) :
    ((changeOf locks ev).touch seq r).ledgerSeq = seq ∧ (changeOf locks ev).puts = none := by
  obtain ⟨subj, hs, ⟨he, hh⟩ | ⟨he, pred, hp, hh⟩⟩ := h
  · rw [changeOf_invalidated he, hs]
    simp [Change.touch, hh, EdgeRow.deactivated]
  · rw [changeOf_contradicted he, hs, hp]
    simp [Change.touch, hh, EdgeRow.conflicting]

/-- Of the edges of a locked entity a change writes those that are struck. -/
theorem locked_touch {locks : String → Bool} {ev : SemanticEvent} {r : EdgeRow} (hl : locks r.subjectRef = true)
    (hn : ¬ Strikes ev r) (seq : Nat) : (changeOf locks ev).touch seq r = r := by
  by_cases hmem : ev.eventType ∈ edgeEventTypes
  · simp only [edgeEventTypes, List.mem_cons, List.not_mem_nil, or_false] at hmem
    have override : isOverride ev.eventType = true → (changeOf locks ev).touch seq r = r := by
      intro he
      rw [changeOf_override he]
      split
      · rename_i subj pred hs hp
        split
        · rfl
        · rename_i hfree
          apply touch_unhit
          · -- its target is an entity that is not locked
            refine Bool.eq_false_iff.2 fun hh => hfree ?_
            have hsubj : r.subjectRef = subj := (hits_active (by simpa using hh)).2
            rw [← hsubj]
            exact hl
          · rfl
      · rfl
    rcases hmem with he | he | he | he | he
    · rw [changeOf_asserted he]
      split
      · split <;> rfl
      · rfl
    · exact override (by rw [he]; rfl)
    · exact override (by rw [he]; rfl)
    · rw [changeOf_invalidated he]
      split
      · rename_i subj hs
        apply touch_unhit
        · exact Bool.eq_false_iff.2 fun hh => hn ⟨subj, hs, .inl ⟨he, by simpa using hh⟩⟩
        · rfl
      · rfl
    · rw [changeOf_contradicted he]
      split
      · rename_i subj pred hs hp
        apply touch_unhit
        · rfl
        · exact Bool.eq_false_iff.2 fun hh => hn ⟨subj, hs, .inr ⟨he, pred, hp, by simpa using hh⟩⟩
      · rfl
  · rw [changeOf_other hmem]
    rfl

/-- A put is about an entity that is not locked. -/
theorem Puts.unlocked {locks : String → Bool} {ev : SemanticEvent} {row : EdgeRow} (h : Puts locks ev row) :
    locks row.subjectRef = false := by
  cases h with
  | asserted _ _ _ hl => exact hl
  | override _ _ _ _ hl => exact hl

/-- **A lock keeps the edges of its entity exactly when no invalidation and no
contradiction strikes one of them while it is locked.** -/
theorem locked_edges_kept_iff {db : Db} (h : Run appendStep Any {} db) :
    LockedEdgesKept db.events ↔ LockedNotStruck db.events := by
  have hst : Stored db := h.inv Stored .empty fun _ call _ hi _ hs => by cases hs; exact hi.append call
  constructor
  · intro hkept pre row t t' step r hr hstrike
    refine Bool.eq_false_iff.2 fun hlock => ?_
    have hspec := step.spec hst
    have hsame := hkept pre row t t' step r.subjectRef hlock
    obtain ⟨hwritten, hputs⟩ := @strikes_touch (lastIsLocked (logOf pre)) _ _ hstrike row.seq
    have hactive : r ∈ activeOf r.subjectRef t := by
      obtain ⟨subj, hs, ⟨he, hh⟩ | ⟨he, pred, hp, hh⟩⟩ := hstrike <;> simp [activeOf, hr, (hits_active hh).1]
    -- the row of the table after the event was written at the event
    rw [← hsame] at hactive
    have hin : r ∈ t' := List.mem_of_mem_filter hactive
    have hnodup : t.ids.Nodup := hspec.edges ▸ edges_nodup pre
    rw [hspec.change] at hin
    rcases mem_on hin with hp | ⟨r₀, hr₀, heq⟩
    · rw [hputs] at hp; cases hp
    · have hid : r₀.factId = r.factId := by rw [heq, touch_factId]
      have hr₀r : r₀ = r := List.inj_on_of_nodup_map hnodup hr₀ hr hid
      subst hr₀r
      have := hspec.fresh r₀ hr₀
      rw [← heq] at hwritten
      omega
  · intro hfree pre row t t' step ref hlock
    have hspec := step.spec hst
    rw [hspec.change]
    apply activeOf_on
    · intro p hp
      have hputs := changeOf_puts hp
      have hne : p.subjectRef ≠ ref := by
        rintro rfl
        rw [hputs.unlocked] at hlock
        cases hlock
      refine ⟨hne, fun r hr hid => ?_⟩
      rw [← (put_over hspec.stored (hspec.edges ▸ hr) hspec.accepted hputs hid).1]
      exact hne
    · rintro r hr - rfl
      refine locked_touch hlock (fun hs => ?_) row.seq
      rw [hfree pre row t t' step r hr hs] at hlock
      cases hlock

/-- An edge of an entity that is then locked. -/
def lockedEdge : Db :=
  (append (append {} (one .SemanticAsserted
    [("predicate_code", .str "P"), ("subject_ref", .str "e"), ("scope", .str "GLOBAL")])).1
    (one .Locked [("entity_ref", .str "e")])).1

/-- An invalidation of the entity. -/
def invalidatedEdge : Db := (append lockedEdge (one .Invalidated [("subject_ref", .str "e")])).1

theorem invalidatedEdge_run : Run appendStep Any {} invalidatedEdge :=
  .step (.step (.step .refl trivial rfl) trivial rfl) trivial rfl

theorem locked_edges_kept_three : LockedEdgesKept invalidatedEdge.events ↔ LockedNotStruck invalidatedEdge.events :=
  locked_edges_kept_iff invalidatedEdge_run

/-- The invalidation deactivates the edge of the locked entity. -/
theorem locked_edge_invalidated : ¬ ∀ db, Run appendStep Any {} db → LockedEdgesKept db.events := by
  intro h
  have hkept := h invalidatedEdge invalidatedEdge_run lockedEdge.events _ _ _ ⟨⟨[], rfl⟩, rfl, rfl⟩ "e" (by decide)
  exact absurd (congrArg List.length hkept) (by decide)

end Umd.Projections
