import Umd.Lib.JsonText
import Umd.Storage.Appended
import Umd.Projections.EdgeFold
/-!
# Fact ids

The digest of a fact names its subject, and an asserted fact and a user's edge
never share one. So each row of the edges comes from an event about its own
subject (`edges_origin`), and a put of another subject leaves it.
-/

namespace Umd.Projections

open Umd.Lib Umd.Events Umd.Reducer Umd.Ledger

/-- The text `idText` takes. -/
def idTextAt (ev : SemanticEvent) (k : String) : Option String :=
  if (ev.payload.get k).truthy then some (pyStr (ev.payload.get k)) else none

/-- What the id of an asserted fact is taken of, by key. -/
def factMembers (ev : SemanticEvent) : List (String × Option String) :=
  [("continuity_id", idTextAt ev "continuity_id"), ("object_entity_id", idTextAt ev "object_entity_id"),
   ("object_ref", textAt ev "object_ref"), ("predicate_code", textAt ev "predicate_code"),
   ("relationship_type", textAt ev "relationship_type"), ("scope", textAt ev "scope"),
   ("subject_entity_id", idTextAt ev "subject_entity_id"), ("subject_ref", textAt ev "subject_ref")]

theorem idText_eq (ev : SemanticEvent) (k : String) : idText ev.payload k = Json.ofStr? (idTextAt ev k) := by
  unfold idText idTextAt
  split <;> rfl

theorem assertedId_eq {ev : SemanticEvent} (h : Accepted ev) (he : ev.eventType = .SemanticAsserted) :
    assertionFactId ev.payload 3 = "3:" ++ objectText (factMembers ev) := by
  have hget : ∀ k, edgeTexts.contains k = true → ev.payload.get k = Json.ofStr? (textAt ev k) :=
    fun k => edge_get h (by rw [he]; decide)
  unfold assertionFactId uuid5 assertionKey
  rw [hget "predicate_code" (by decide), hget "subject_ref" (by decide), hget "object_ref" (by decide),
    hget "scope" (by decide), hget "relationship_type" (by decide)]
  simp only [idText_eq]
  rw [show toString (3 : Nat) ++ ":" = "3:" from rfl]
  refine congrArg ("3:" ++ ·) ?_
  rw [dumpsWith]
  simp [dumpsFields, insertField, objectText, factMembers, memberText, textJson]

/-- What the id of a user's edge is taken of, by key. -/
def overrideMembers (etype : EventType) (subj pred obj : String) (relType : Option String) : List (String × Option String) :=
  [("authority", some userOverride), ("event_type", some etype.name), ("object_ref", some obj), ("predicate", some pred),
   ("relationship_type", relType), ("subject_ref", some subj)]

theorem overrideId_eq (etype : EventType) (subj pred obj : String) (relType : Option String) :
    overrideFactId etype subj pred obj relType = "edge:v1:" ++ objectText (overrideMembers etype subj pred obj relType) := by
  unfold overrideFactId uuid5
  refine congrArg ("edge:v1:" ++ ·) ?_
  rw [dumpsWith]
  simp [dumpsFields, insertField, objectText, overrideMembers, memberText, textJson, Json.ofStr?]

theorem append_text_inj {p a b : String} (h : p ++ a = p ++ b) : a = b := by
  have := congrArg String.toList h
  rw [String.toList_append, String.toList_append] at this
  exact String.toList_inj.1 (List.append_cancel_left this)

/-- Equal ids of asserted facts are of equal facts. -/
theorem assertedId_inj {ev ev' : SemanticEvent} (h : Accepted ev) (he : ev.eventType = .SemanticAsserted) (h' : Accepted ev')
    (he' : ev'.eventType = .SemanticAsserted) (hid : assertionFactId ev.payload 3 = assertionFactId ev'.payload 3) :
    factMembers ev = factMembers ev' := by
  rw [assertedId_eq h he, assertedId_eq h' he'] at hid
  exact objectText_inj (append_text_inj hid)

theorem overrideId_inj {etype etype' : EventType} {subj pred obj subj' pred' obj' : String} {rel rel' : Option String}
    (h : overrideFactId etype subj pred obj rel = overrideFactId etype' subj' pred' obj' rel') :
    overrideMembers etype subj pred obj rel = overrideMembers etype' subj' pred' obj' rel' := by
  rw [overrideId_eq, overrideId_eq] at h
  exact objectText_inj (append_text_inj h)

/-- An asserted fact and a user's edge have different ids. -/
theorem assertedId_ne_overrideId {ev : SemanticEvent} (h : Accepted ev) (he : ev.eventType = .SemanticAsserted)
    (etype : EventType) (subj pred obj : String) (rel : Option String) :
    assertionFactId ev.payload 3 ≠ overrideFactId etype subj pred obj rel := by
  rw [assertedId_eq h he, overrideId_eq]
  intro hid
  have := congrArg (fun s : String => s.toList.head?) hid
  simp at this

/-- Two puts of one fact are about one subject, and both by assertions or both by a user. -/
theorem Puts.same_fact {locks locks' : String → Bool} {ev ev' : SemanticEvent} {row row' : EdgeRow} (hp : Puts locks ev row)
    (hp' : Puts locks' ev' row') (h : Accepted ev) (h' : Accepted ev') (hid : row.factId = row'.factId) :
    row.subjectRef = row'.subjectRef ∧ (ev.eventType = .SemanticAsserted ↔ ev'.eventType = .SemanticAsserted) := by
  have hnot : ∀ {e : EventType}, isOverride e = true → e ≠ .SemanticAsserted := by
    rintro e ho rfl
    cases ho
  cases hp with
  | asserted he hs =>
    cases hp' with
    | asserted he' hs' =>
      have hm := assertedId_inj h he h' he' hid
      have hsubj : textAt ev "subject_ref" = textAt ev' "subject_ref" := by
        simp only [factMembers, List.cons.injEq, Prod.mk.injEq, true_and] at hm
        exact hm.2.2.2.2.2.2.2.1
      rw [(nonEmpty_eq hs).1, (nonEmpty_eq hs').1] at hsubj
      exact ⟨Option.some.inj hsubj, iff_of_true he he'⟩
    | override he' => exact absurd hid (assertedId_ne_overrideId h he _ _ _ _ _)
  | override he =>
    cases hp' with
    | asserted he' => exact absurd hid.symm (assertedId_ne_overrideId h' he' _ _ _ _ _)
    | override he' =>
      have hm := overrideId_inj hid
      simp only [overrideMembers, List.cons.injEq, Prod.mk.injEq, true_and, Option.some.injEq] at hm
      exact ⟨hm.2.2.2.2.1, iff_of_false (hnot he) (hnot he')⟩

/-! ## Where a row comes from -/

/-- The columns no update of a row moves. -/
structure SameEdge (r r' : EdgeRow) : Prop where
  factId : r'.factId = r.factId
  eventType : r'.eventType = r.eventType
  predicate : r'.predicate = r.predicate
  subjectRef : r'.subjectRef = r.subjectRef
  objectRef : r'.objectRef = r.objectRef
  authority : r'.authority = r.authority
  scope : r'.scope = r.scope
  derivation : r'.derivation = r.derivation

theorem SameEdge.refl (r : EdgeRow) : SameEdge r r := ⟨rfl, rfl, rfl, rfl, rfl, rfl, rfl, rfl⟩

theorem SameEdge.trans {r r' r'' : EdgeRow} (h : SameEdge r r') (h' : SameEdge r' r'') : SameEdge r r'' :=
  ⟨h'.factId.trans h.factId, h'.eventType.trans h.eventType, h'.predicate.trans h.predicate,
    h'.subjectRef.trans h.subjectRef, h'.objectRef.trans h.objectRef, h'.authority.trans h.authority,
    h'.scope.trans h.scope, h'.derivation.trans h.derivation⟩

theorem touch_sameEdge (c : Change) (n : Nat) (r : EdgeRow) : SameEdge r (c.touch n r) := by
  unfold Change.touch
  split
  · exact ⟨rfl, rfl, rfl, rfl, rfl, rfl, rfl, rfl⟩
  · split
    · split
      · exact ⟨rfl, rfl, rfl, rfl, rfl, rfl, rfl, rfl⟩
      · exact .refl r
    · exact .refl r

/-- A row of the table after a change was put by it, or comes from a row that was there. -/
theorem mem_on {c : Change} {n : Nat} {t : EdgeTable} {r : EdgeRow} (h : r ∈ c.on n t) :
    c.puts = some r ∨ ∃ r₀ ∈ t, r = c.touch n r₀ := by
  unfold Change.on at h
  cases hp : c.puts with
  | none =>
    rw [hp] at h
    obtain ⟨r₀, hr₀, rfl⟩ := List.mem_map.1 h
    exact .inr ⟨r₀, hr₀, rfl⟩
  | some row =>
    rw [hp] at h
    simp only [EdgeTable.upsert] at h
    split at h
    · obtain ⟨r₁, hr₁, rfl⟩ := List.mem_map.1 h
      obtain ⟨r₀, hr₀, rfl⟩ := List.mem_map.1 hr₁
      split
      · exact .inl rfl
      · exact .inr ⟨r₀, hr₀, rfl⟩
    · rcases List.mem_append.1 h with h | h
      · obtain ⟨r₀, hr₀, rfl⟩ := List.mem_map.1 h
        exact .inr ⟨r₀, hr₀, rfl⟩
      · exact .inl (congrArg some (List.mem_singleton.1 h).symm)

/-- The edges after one more event. -/
theorem edgesOf_snoc (rows : List EventRow) (row : EventRow) :
    edgesOf (rows ++ [row]) = (changeOf (lastIsLocked (logOf (rows ++ [row]))) (upcast row)).on row.seq (edgesOf rows) := by
  rw [edgesOf, changes_append, onAll_append]
  rfl

/-- A row of the edges was put by an event of the log, and its `ledger_seq` is that of an event. -/
structure Origin (rows : List EventRow) (r : EdgeRow) : Prop where
  puts : ∃ locks, ∃ row ∈ rows, ∃ p, Puts locks (upcast row) p ∧ SameEdge p r
  stamped : ∃ row ∈ rows, row.seq = r.ledgerSeq

theorem Origin.mono {rows more : List EventRow} {r : EdgeRow} (h : Origin rows r) : Origin (rows ++ more) r := by
  obtain ⟨⟨locks, row, hrow, p, hp, hs⟩, row', hrow', hseq⟩ := h
  exact ⟨⟨locks, row, List.mem_append_left _ hrow, p, hp, hs⟩, row', List.mem_append_left _ hrow', hseq⟩

theorem touch_ledgerSeq (c : Change) (n : Nat) (r : EdgeRow) : (c.touch n r).ledgerSeq = n ∨ c.touch n r = r := by
  unfold Change.touch
  split
  · exact .inl rfl
  · split
    · split
      · exact .inl rfl
      · exact .inr rfl
    · exact .inr rfl

theorem edges_origin (rows : List EventRow) : ∀ r ∈ edgesOf rows, Origin rows r := by
  induction rows using List.reverseRecOn with
  | nil => exact fun r hr => absurd hr List.not_mem_nil
  | append_singleton rows row ih =>
    intro r hr
    rw [edgesOf_snoc] at hr
    have hlast : row ∈ rows ++ [row] := by simp
    rcases mem_on hr with hp | ⟨r₀, hr₀, rfl⟩
    · have hputs := changeOf_puts hp
      refine ⟨⟨_, row, hlast, r, hputs, .refl r⟩, row, hlast, ?_⟩
      cases hputs <;> rfl
    · obtain ⟨⟨locks, row', hrow', p, hp, hs⟩, hst⟩ := @Origin.mono _ [row] _ (ih r₀ hr₀)
      refine ⟨⟨locks, row', hrow', p, hp, hs.trans (touch_sameEdge ..)⟩, ?_⟩
      rcases touch_ledgerSeq (changeOf (lastIsLocked (logOf (rows ++ [row]))) (upcast row)) row.seq r₀ with h | h
      · exact ⟨row, hlast, h.symm⟩
      · rw [h]; exact hst

theorem edges_nodup (rows : List EventRow) : (edgesOf rows).ids.Nodup := onAll_nodup .nil

/-- A put of a fact that is there is about its subject, and by an assertion exactly when the row is asserted. -/
theorem put_over {rows : List EventRow} (hs : StoredRows rows) {r : EdgeRow} (hr : r ∈ edgesOf rows)
    {locks : String → Bool} {ev : SemanticEvent} (ha : Accepted ev) {p : EdgeRow} (hp : Puts locks ev p)
    (hid : p.factId = r.factId) :
    p.subjectRef = r.subjectRef ∧ (ev.eventType = .SemanticAsserted ↔ r.eventType = .SemanticAsserted) := by
  obtain ⟨locks', row, hrow, p', hp', hsame⟩ := (edges_origin rows r hr).puts
  obtain ⟨h1, h2⟩ := hp.same_fact hp' ha (hs row hrow) (hid.trans hsame.factId)
  have htype : p'.eventType = (upcast row).eventType := by cases hp' <;> rfl
  refine ⟨h1.trans hsame.subjectRef.symm, ?_⟩
  rw [hsame.eventType, htype]
  exact h2

end Umd.Projections
