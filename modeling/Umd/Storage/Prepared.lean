import Umd.Storage.TableFold
/-!
# What validation gives the fold

A payload that `prepare` accepts names its rows as `WellTargeted` says, and the
fold does not see the difference between a payload and what the upcasters make
of it: they add fields it does not read, or set to `None` fields it reads as
`None` where they are absent.
-/

namespace Umd.Reducer

open Umd.Lib Umd.Events

/-! ## Accepted payloads -/

/-- What an accepted event is prepared as. -/
theorem prepare_ok {ev : SemanticEvent} {pe : PreparedEvent} (h : ev.prepare = .ok pe) :
    ∃ v s, loadSchema ev.eventType v = some s ∧ s.valid (.obj ev.payload) = true ∧
      pe = { eventType := ev.eventType
             eventVersion := (upcastPayload ev.eventType v ev.payload).1
             schemaUrl := schemaUrl ev.eventType (upcastPayload ev.eventType v ev.payload).1
             payload := (upcastPayload ev.eventType v ev.payload).2
             authority := ev.authority, confidence := ev.confidence, generatedBy := ev.generatedBy
             correlationId := ev.correlationId, causationId := ev.causationId, createdBy := ev.createdBy } := by
  simp only [SemanticEvent.prepare, bind, Except.bind] at h
  split at h
  · cases h
  · rename_i v _
    split at h
    · cases h
    · rename_i hv
      split at h
      · cases h
      · simp only [pure, Except.pure, Except.ok.injEq] at h
        unfold validatePayload at hv
        split at hv
        · cases hv
        · rename_i s hs
          split at hv
          · exact ⟨v, s, hs, ‹_›, h.symm⟩
          · cases hv

/-- The event's payload is accepted under a retained schema. -/
def Accepted (ev : SemanticEvent) : Prop := ∃ v s, loadSchema ev.eventType v = some s ∧ s.valid (.obj ev.payload) = true

theorem accepted_of_prepare {ev : SemanticEvent} {pe : PreparedEvent} (h : ev.prepare = .ok pe) : Accepted ev := by
  obtain ⟨v, s, hs, hv, -⟩ := prepare_ok h
  exact ⟨v, s, hs, hv⟩

theorem Dict.get_of_none {d : Dict} {k : String} (h : d.get? k = none) : d.get k = .null := by rw [Dict.get, h]; rfl

/-- An assertion's predicate is its code, which no marker or wildcard is. -/
theorem asserted_predicate {ev : SemanticEvent} (h : Accepted ev) (he : ev.eventType = .SemanticAsserted) :
    ev.payload.get? "predicate" = none ∧
      ∃ code, ev.payload.get? "predicate_code" = some (.str code) ∧ codePattern code = true := by
  obtain ⟨v, s, hs, hv⟩ := h
  rw [he] at hs
  suffices hps : ∃ req ps, s = .record req true ps ∧ "predicate" ∉ ps.map (·.1) ∧ "predicate_code" ∈ req ∧
      ("predicate_code", Schema.pattern codePattern) ∈ ps by
    obtain ⟨req, ps, rfl, hp, hr, hm⟩ := hps
    obtain ⟨j, hj⟩ := Schema.required_get hv hr
    have hcode := Schema.prop_valid hv hm hj
    refine ⟨Schema.closed_get hv hp, ?_⟩
    cases j <;> simp only [Schema.valid, Bool.false_eq_true] at hcode
    exact ⟨_, hj, hcode⟩
  unfold loadSchema at hs
  split at hs <;> simp only [reduceCtorEq] at *
  all_goals cases hs; exact ⟨_, _, rfl, by decide, by decide, by simp [assertedProps]⟩

/-- A resolution addresses its `entity_id` and has no predicate; its first
version neither establishes nor updates an identity. -/
theorem resolved_fields {ev : SemanticEvent} (h : Accepted ev) (he : ev.eventType = .EntityResolved) :
    (∀ k ∈ ["subject_ref", "entity_ref", "source_id", "subject_entity_id", "predicate", "predicate_code"],
      ev.payload.get? k = none) ∧ ∃ id, ev.payload.get? "entity_id" = some (.str id) := by
  obtain ⟨v, s, hs, hv⟩ := h
  rw [he] at hs
  suffices hps : ∃ req ps, s = .record req true ps ∧
      (∀ k ∈ ["subject_ref", "entity_ref", "source_id", "subject_entity_id", "predicate", "predicate_code"],
        k ∉ ps.map (·.1)) ∧ "entity_id" ∈ req ∧ ("entity_id", Schema.string) ∈ ps by
    obtain ⟨req, ps, rfl, hp, hr, hm⟩ := hps
    obtain ⟨j, hj⟩ := Schema.required_get hv hr
    have hid := Schema.prop_valid hv hm hj
    refine ⟨fun k hk => Schema.closed_get hv (hp k hk), ?_⟩
    cases j <;> simp only [Schema.valid, Bool.false_eq_true] at hid
    exact ⟨_, hj⟩
  unfold loadSchema at hs
  split at hs <;> simp only [reduceCtorEq] at *
  all_goals cases hs; exact ⟨_, _, rfl, by decide, by decide, by simp [resolvedProps]⟩

theorem mentioned_fields {ev : SemanticEvent} (h : Accepted ev) (he : ev.eventType = .EntityMentioned) :
    ev.payload.get? "predicate" = none ∧ ev.payload.get? "predicate_code" = none := by
  obtain ⟨v, s, hs, hv⟩ := h
  rw [he] at hs
  unfold loadSchema at hs
  split at hs <;> simp only [reduceCtorEq] at *
  cases hs
  exact ⟨Schema.closed_get hv (by decide), Schema.closed_get hv (by decide)⟩

theorem accepted_not_other {ev : SemanticEvent} (h : Accepted ev) (n : String) : ev.eventType ≠ .other n := by
  obtain ⟨v, s, hs, -⟩ := h
  intro he
  rw [he] at hs
  simp [loadSchema] at hs

theorem codePattern_ne {code s : String} (h : codePattern code = true) (hs : codePattern s = false) : code ≠ s := by
  rintro rfl
  rw [h] at hs
  cases hs

/-- An assertion targets the row of its predicate code. -/
theorem asserted_target {ev : SemanticEvent} (h : Accepted ev) (he : ev.eventType = .SemanticAsserted) {k : Key}
    (ht : eventTarget ev = some k) : codePattern k.2 = true := by
  obtain ⟨hp, code, hc, hpat⟩ := asserted_predicate h he
  simp only [eventTarget, he, nonSemantic, isLockEvent, List.mem_cons, reduceCtorEq, List.not_mem_nil, or_self,
    if_false, decide_false, Bool.or_self, Bool.false_eq_true] at ht
  cases hr : entityRefOf ev with
  | none => simp [hr] at ht
  | some ref =>
    have hpred : pyOr (ev.payload.get "predicate") (ev.payload.get "predicate_code") = .str code := by
      rw [Dict.get_of_none hp, Dict.get, hc]; rfl
    simp only [hr, hpred, Option.some.injEq] at ht
    rw [← ht]
    exact hpat

theorem resolved_target {ev : SemanticEvent} (h : Accepted ev) (he : ev.eventType = .EntityResolved) {k : Key}
    (ht : eventTarget ev = some k) : k.2 = "CANONICAL_ENTITY" := by
  have hf := (resolved_fields h he).1
  have hpred : pyOr (ev.payload.get "predicate") (ev.payload.get "predicate_code") = .null := by
    rw [Dict.get_of_none (hf "predicate" (by simp)), Dict.get_of_none (hf "predicate_code" (by simp))]; rfl
  simp only [eventTarget, he, nonSemantic, isLockEvent, List.mem_cons, reduceCtorEq, List.not_mem_nil, or_self,
    if_false, decide_false, Bool.or_self, Bool.false_eq_true, hpred, if_true] at ht
  cases hr : entityRefOf ev <;> simp only [hr, reduceCtorEq, Option.some.injEq] at ht
  rw [← ht]

theorem mentioned_target {ev : SemanticEvent} (h : Accepted ev) (he : ev.eventType = .EntityMentioned) {k : Key}
    (ht : eventTarget ev = some k) : k.2 = "CANDIDATE" := by
  obtain ⟨hp, hc⟩ := mentioned_fields h he
  have hpred : pyOr (ev.payload.get "predicate") (ev.payload.get "predicate_code") = .null := by
    rw [Dict.get_of_none hp, Dict.get_of_none hc]; rfl
  simp only [eventTarget, he, nonSemantic, isLockEvent, List.mem_cons, reduceCtorEq, List.not_mem_nil, or_self,
    if_false, decide_false, Bool.or_self, Bool.false_eq_true, hpred, if_true] at ht
  cases hr : entityRefOf ev <;> simp only [hr, reduceCtorEq, Option.some.injEq] at ht
  rw [← ht]

theorem identityRef_cases (ev : SemanticEvent) :
    (ev.eventType = .EntityResolved ∧ identityRef ev = ev.payload.get "entity_id") ∨
      identityRef ev = Json.ofStr? (entityRefOf ev) ∨ identityRef ev = .null := by
  unfold identityRef
  split
  · exact .inl ⟨(‹_ ∧ _›).1, rfl⟩
  · split
    · exact .inr (.inl rfl)
    · exact .inr (.inr rfl)

theorem identityEventTarget_eq {ev : SemanticEvent} {k : Key} (h : identityEventTarget ev = some k) :
    (identityRef ev).truthy = true ∧ k = (pyStr (identityRef ev), canonicalIdentity) := by
  unfold identityEventTarget at h
  split at h <;> cases h
  exact ⟨‹_›, rfl⟩

theorem Accepted.wellTargeted {ev : SemanticEvent} (h : Accepted ev) : WellTargeted ev := by
  constructor
  · intro ref ht
    have hmarker : codePattern lockPredicate = false := by decide
    cases he : ev.eventType with
    | OverrideApplied | CorrectionApplied => exact .inl rfl
    | ContradictionRecorded => exact .inr (.inl rfl)
    | Invalidated => exact .inr (.inr rfl)
    | SemanticAsserted => exact absurd rfl (codePattern_ne (asserted_target h he ht) hmarker)
    | EntityResolved => exact absurd (show lockPredicate = _ from resolved_target h he ht) (by decide)
    | EntityMentioned => exact absurd (show lockPredicate = _ from mentioned_target h he ht) (by decide)
    | other n => exact absurd he (accepted_not_other h n)
    | Locked | Unlocked =>
      simp only [eventTarget, he, nonSemantic, isLockEvent, List.mem_cons, reduceCtorEq, List.not_mem_nil, or_self,
        if_false, decide_true, Bool.true_or, Bool.or_true, if_true] at ht
      cases hr : entityRefOf ev <;> simp only [hr, reduceCtorEq, Option.some.injEq, Prod.mk.injEq] at ht
      exact absurd ht.2 (by decide)
    | SourceIngested | SourceAliased | FormatAnalyzed | SegmentCreated | StageCompleted | JobRunAudit
    | ReferenceRebound | Aligned | LocatorRebased | HallucinationFiltered =>
      simp [eventTarget, he, nonSemantic] at ht
  · intro k hk
    obtain ⟨ht, rfl⟩ := identityEventTarget_eq hk
    rcases identityRef_cases ev with ⟨he, hid⟩ | hid | hid <;> rw [hid] at ht ⊢
    · have hg : ∀ key ∈ ["subject_ref", "entity_ref", "source_id", "subject_entity_id"],
          (ev.payload.get key).truthy = false := fun key hkey => by
        rw [Dict.get_of_none ((resolved_fields h he).1 key (by simp at hkey ⊢; tauto))]; rfl
      simp only [entityRefOf, firstRef, hg _ (by simp : "subject_ref" ∈ _), hg _ (by simp : "entity_ref" ∈ _),
        hg _ (by simp : "source_id" ∈ _), hg _ (by simp : "subject_entity_id" ∈ _), Bool.false_eq_true, if_false, ht,
        if_true]
    · cases hr : entityRefOf ev with
      | none => rw [hr] at ht; cases ht
      | some ref => rfl
    · cases ht

/-! ## Upcast payloads -/

/-- The fields an upcaster may add. -/
def upcastFields : List String :=
  ["scope", "relationship_type", "canonical_type", "display_label", "aliases", "support_refs", "memberships", "state",
   "confidence"]

/-- The payload reads like the event's: it differs in fields an upcaster adds,
and those are read as they were where they matter. -/
structure SameFields (ev : SemanticEvent) (p : Dict) : Prop where
  fields : ∀ k, k ∉ upcastFields → p.get? k = ev.payload.get? k
  stateField : p.get "state" = ev.payload.get "state"
  confField : p.get "confidence" = ev.payload.get "confidence"
  overrideConf : isOverride ev.eventType = true → p.get? "confidence" = ev.payload.get? "confidence"
  identity : identityEventTarget ev ≠ none → ∀ k, k ∉ ["scope", "relationship_type"] → p.get? k = ev.payload.get? k

/-- Most upcasters add nothing but the two fields the fold never reads. -/
theorem SameFields.of_unread {ev : SemanticEvent} {p : Dict}
    (h : ∀ k, k ∉ ["scope", "relationship_type"] → p.get? k = ev.payload.get? k) : SameFields ev p where
  fields k hk := h k fun hm => hk (by simp at hm; rcases hm with rfl | rfl <;> decide)
  stateField := by rw [Dict.get, h "state" (by decide), Dict.get]
  confField := by rw [Dict.get, h "confidence" (by decide), Dict.get]
  overrideConf _ := h "confidence" (by decide)
  identity _ := h

/-- Two events the fold cannot tell apart. -/
structure ReadsAlike (ev ev' : SemanticEvent) : Prop where
  eventType : ev'.eventType = ev.eventType
  authority : ev'.authority = ev.authority
  confidence : ev'.confidence = ev.confidence
  generatedBy : ev'.generatedBy = ev.generatedBy
  createdBy : ev'.createdBy = ev.createdBy
  seq : ev'.seq = ev.seq
  payload : SameFields ev ev'.payload

variable {ev ev' : SemanticEvent}

theorem ReadsAlike.get (h : ReadsAlike ev ev') {k : String} (hk : k ∉ upcastFields) :
    ev'.payload.get k = ev.payload.get k := by rw [Dict.get, Dict.get, h.payload.fields k hk]

theorem ReadsAlike.entityRefOf (h : ReadsAlike ev ev') : entityRefOf ev' = entityRefOf ev := by
  simp only [Umd.Reducer.entityRefOf, firstRef, h.get (k := "subject_ref") (by decide),
    h.get (k := "entity_ref") (by decide), h.get (k := "source_id") (by decide),
    h.get (k := "subject_entity_id") (by decide), h.get (k := "entity_id") (by decide)]

theorem ReadsAlike.eventTarget (h : ReadsAlike ev ev') : eventTarget ev' = eventTarget ev := by
  unfold Umd.Reducer.eventTarget
  rw [h.eventType, h.entityRefOf, h.get (k := "predicate") (by decide), h.get (k := "predicate_code") (by decide)]

theorem ReadsAlike.identityEventTarget (h : ReadsAlike ev ev') : identityEventTarget ev' = identityEventTarget ev := by
  have href : identityRef ev' = identityRef ev := by
    unfold identityRef
    rw [h.eventType, h.entityRefOf, h.get (k := "kind") (by decide), h.get (k := "entity_id") (by decide),
      h.get (k := "predicate") (by decide)]
  unfold Umd.Reducer.identityEventTarget
  rw [href]

theorem ReadsAlike.targetsRow (h : ReadsAlike ev ev') (row : CurrentStateRow) : targetsRow row ev' = targetsRow row ev := by
  simp only [Umd.Reducer.targetsRow, h.eventTarget]

theorem ReadsAlike.outranked (h : ReadsAlike ev ev') (row : CurrentStateRow) (n : Nat) :
    outranked row ev' n = outranked row ev n := by
  simp only [Umd.Reducer.outranked, byUser, h.authority]

theorem ReadsAlike.seqOn (h : ReadsAlike ev ev') (row : CurrentStateRow) : seqOn row ev' = seqOn row ev := by
  simp only [Umd.Reducer.seqOn, h.seq]

theorem ReadsAlike.assertion (h : ReadsAlike ev ev') (row : CurrentStateRow) (n : Nat) :
    assertion row ev' n = assertion row ev n := by
  simp only [Umd.Reducer.assertion, h.authority, h.get (k := "object_ref") (by decide),
    h.get (k := "object_entity_id") (by decide), h.get (k := "authority") (by decide), h.payload.stateField, h.payload.confField]

theorem ReadsAlike.resolvedAssertion (h : ReadsAlike ev ev') (n : Nat) :
    resolvedAssertion ev' n = resolvedAssertion ev n := by
  simp only [Umd.Reducer.resolvedAssertion, h.authority, h.payload.fields "kind" (by decide),
    h.get (k := "target_entity_id") (by decide), h.get (k := "entity_id") (by decide),
    h.payload.fields "entity_id" (by decide), h.payload.stateField, h.payload.confField]

theorem ReadsAlike.applyChange (h : ReadsAlike ev ev') (row : CurrentStateRow) :
    applyChange row ev' = applyChange row ev := by
  unfold Umd.Reducer.applyChange
  rw [h.eventType, h.seqOn, h.outranked]
  split
  · rename_i ho
    simp only [overrideWinner, h.get (k := "object_ref") (by decide), h.payload.overrideConf ho]
  · split
    · rfl
    · split
      · simp only [contradiction, h.authority, h.get (k := "contradicting_ref") (by decide),
          h.get (k := "refs") (by decide)]
      · simp only [invalidation, h.authority]
      · simp only [entityResolved, h.resolvedAssertion]
      · simp only [candidate, h.authority, h.get (k := "mention_text") (by decide),
          h.get (k := "mention_id") (by decide), h.payload.fields "source_id" (by decide)]
      · exact h.assertion row _

theorem ReadsAlike.reduceCurrentState (h : ReadsAlike ev ev') (row : CurrentStateRow) :
    reduceCurrentState row ev' = reduceCurrentState row ev := by
  unfold Umd.Reducer.reduceCurrentState
  rw [h.eventType, h.targetsRow, h.applyChange]

theorem ReadsAlike.payloadMetadata (h : ReadsAlike ev ev') (hi : Umd.Reducer.identityEventTarget ev ≠ none) :
    payloadMetadata ev' = payloadMetadata ev := by
  have hg : ∀ k, k ∉ ["scope", "relationship_type"] → ev'.payload.get k = ev.payload.get k := fun k hk => by
    rw [Dict.get, Dict.get, h.payload.identity hi k hk]
  simp only [Umd.Reducer.payloadMetadata, h.generatedBy, h.createdBy, hg "memberships" (by decide),
    hg "membership_tuples" (by decide), hg "aliases" (by decide), hg "support_refs" (by decide),
    hg "generated_by" (by decide), hg "derived_from" (by decide), hg "correspondence" (by decide),
    hg "kind" (by decide), hg "canonical_type" (by decide), hg "display_label" (by decide), hg "state" (by decide),
    hg "confidence" (by decide), hg "classification" (by decide), hg "actor" (by decide),
    hg "attributed_actor" (by decide)]

theorem ReadsAlike.reduceCanonicalIdentity (h : ReadsAlike ev ev') (hi : Umd.Reducer.identityEventTarget ev ≠ none)
    (row : CurrentStateRow) : reduceCanonicalIdentity row ev' = reduceCanonicalIdentity row ev := by
  have hu : byUser ev' = byUser ev := by rw [byUser, h.authority, byUser]
  have hmeta : identityMetadata ev' = identityMetadata ev := by
    unfold identityMetadata
    rw [h.eventType, h.get (k := "object_ref") (by decide), h.payloadMetadata hi]
  have hmerge : mergedMetadata row ev' = mergedMetadata row ev := by
    funext metadata
    simp only [mergedMetadata, hu, h.createdBy, h.get (k := "actor") (by decide)]
  have hwin : winnerMetadata row ev' = winnerMetadata row ev := by
    unfold winnerMetadata
    rw [hmeta, hmerge, h.eventType]
  have hconf : payloadConf ev' row = payloadConf ev row := by
    simp only [payloadConf, h.confidence, h.payload.confField]
  have hset : ∀ n metadata conf, identityWinner row ev' n metadata conf = identityWinner row ev n metadata conf :=
    fun n metadata conf => by simp only [identityWinner, hu, h.authority]
  have hinv : ∀ n, invalidation row ev' n = invalidation row ev n := fun n => by simp only [invalidation, h.authority]
  unfold Umd.Reducer.reduceCanonicalIdentity
  simp only [h.outranked, h.seqOn, hinv, hwin, hconf, hset]
  rw [h.eventType]

theorem ReadsAlike.changeTarget (h : ReadsAlike ev ev') : Umd.Reducer.changeTarget ev' = Umd.Reducer.changeTarget ev := by
  simp only [Umd.Reducer.changeTarget, h.eventTarget]

theorem ReadsAlike.writes (h : ReadsAlike ev ev') : writes ev' = writes ev := by
  unfold Umd.Reducer.writes
  rw [h.eventType, h.entityRefOf, h.changeTarget, h.identityEventTarget]

/-- The fold of the table does not see the difference. -/
theorem ReadsAlike.reduce (h : ReadsAlike ev ev') (t : Table) : t.reduce ev' = t.reduce ev := by
  have hkey : t.identityKey ev' = t.identityKey ev := by simp only [Table.identityKey, h.identityEventTarget]
  have hmark : ∀ r locked, Table.marker r ev' locked = Table.marker r ev locked := fun r locked => by
    simp only [Table.marker, lockMarker, h.seq]
  have hchange : ∀ r, Table.change r ev' = Table.change r ev := fun r => by
    simp only [Table.change, h.reduceCurrentState]
  unfold Table.reduce
  rw [h.eventType, h.entityRefOf, h.changeTarget]
  split
  · simp only [hmark]
  · cases Umd.Reducer.changeTarget ev with
    | none => rfl
    | some target =>
      simp only [Table.reduceChange, hkey, hchange]
      cases hid : t.identityKey ev with
      | none => rfl
      | some k =>
        have hi : Umd.Reducer.identityEventTarget ev ≠ none := by
          rw [(Option.filter_eq_some_iff.1 hid).1]; simp
        simp only [Table.identity, h.reduceCanonicalIdentity hi]

theorem ReadsAlike.wellTargeted (h : ReadsAlike ev ev') (hw : WellTargeted ev) : WellTargeted ev' where
  markerChange ref ht := by rw [h.eventTarget] at ht; rw [h.eventType]; exact hw.markerChange ref ht
  identityEntity k hk := by rw [h.identityEventTarget] at hk; rw [h.entityRefOf]; exact hw.identityEntity k hk

/-- A resolution of the first version neither establishes nor updates an identity. -/
theorem resolved_v1_identity (he : ev.eventType = .EntityResolved) {s : Schema}
    (hs : loadSchema .EntityResolved 1 = some s) (hv : s.valid (.obj ev.payload) = true) :
    identityEventTarget ev = none := by
  simp only [loadSchema, Option.some.injEq] at hs
  subst hs
  obtain ⟨j, hj⟩ := Schema.required_get hv (k := "kind") (by simp)
  have hkind := Schema.prop_valid hv (k := "kind") (s := .enum ["MERGE", "SPLIT", "ALIAS"]) (by simp [resolvedProps]) hj
  have hget : ev.payload.get "kind" = j := by rw [Dict.get, hj]; rfl
  have hne : ∀ t, t ∉ ["MERGE", "SPLIT", "ALIAS"] → (ev.payload.get "kind").isStr t = false := by
    intro t ht
    rw [hget, Bool.eq_false_iff, ne_eq, Json.isStr_iff]
    rintro rfl
    exact ht (List.contains_iff_mem.1 hkind)
  simp [identityEventTarget, identityRef, he, hne "ESTABLISH" (by decide), hne "UPDATE" (by decide), Json.truthy]

theorem get?_setdefault_unread (d : Dict) (j : Json) {k : String} (hk : k ∉ ["scope", "relationship_type"]) :
    (d.setdefault "scope" j).get? k = d.get? k ∧ (d.setdefault "relationship_type" j).get? k = d.get? k := by
  simp only [List.mem_cons, List.not_mem_nil, or_false, not_or] at hk
  exact ⟨Dict.get?_setdefault_ne d j (Ne.symm hk.1), Dict.get?_setdefault_ne d j (Ne.symm hk.2)⟩

/-- What the upcasters make of an accepted payload reads like the payload. -/
theorem upcast_fields {v : Nat} {s : Schema} (hs : loadSchema ev.eventType v = some s)
    (hv : s.valid (.obj ev.payload) = true) : SameFields ev (upcastPayload ev.eventType v ev.payload).2 := by
  cases he : ev.eventType with
  | EntityResolved =>
    rw [he] at hs
    match v, hs with
    | 1, hs =>
      have hp : (upcastPayload .EntityResolved 1 ev.payload).2 = upcastEntityResolved1To2 ev.payload := rfl
      rw [hp, upcastEntityResolved1To2]
      refine ⟨fun k hk => ?_, ?_, ?_, fun ho => ?_, fun h => absurd (resolved_v1_identity he hs hv) h⟩
      · simp only [upcastFields, List.mem_cons, List.not_mem_nil, or_false, not_or] at hk
        obtain ⟨-, -, h1, h2, h3, h4, h5, h6, h7⟩ := hk
        simp only [Dict.get?_setdefault_ne _ _ (Ne.symm h1), Dict.get?_setdefault_ne _ _ (Ne.symm h2),
          Dict.get?_setdefault_ne _ _ (Ne.symm h3), Dict.get?_setdefault_ne _ _ (Ne.symm h4),
          Dict.get?_setdefault_ne _ _ (Ne.symm h5), Dict.get?_setdefault_ne _ _ (Ne.symm h6),
          Dict.get?_setdefault_ne _ _ (Ne.symm h7)]
      · simp [Dict.get_setdefault_ne, Dict.get_setdefault_null]
      · simp [Dict.get_setdefault_ne, Dict.get_setdefault_null]
      · rw [he] at ho; cases ho
    | 2, _ => exact .of_unread fun _ _ => rfl
    | 0, hs | n + 3, hs => simp [loadSchema] at hs
  | SemanticAsserted =>
    rw [he] at hs
    refine .of_unread fun k hk => ?_
    match v, hs with
    | 1, _ => exact (get?_setdefault_unread _ _ hk).2.trans (get?_setdefault_unread _ _ hk).1
    | 2, _ => exact (get?_setdefault_unread _ _ hk).2
    | 3, _ => rfl
    | 0, hs | n + 4, hs => simp [loadSchema] at hs
  | OverrideApplied | CorrectionApplied | ContradictionRecorded | Invalidated =>
    rw [he] at hs
    refine .of_unread fun k hk => ?_
    match v, hs with
    | 1, _ => exact (get?_setdefault_unread _ _ hk).2
    | 2, _ => rfl
    | 0, hs | n + 3, hs => simp [loadSchema] at hs
  | _ => exact .of_unread fun _ _ => rfl

/-- The latest version has no upcaster. -/
theorem upcast_latest {etype : EventType} {v : Nat} {s : Schema} (hs : loadSchema etype v = some s) (p q : Dict) :
    (upcastPayload etype (upcastPayload etype v p).1 q).2 = q ∧ (upcastPayload etype v p).1 ≠ 0 := by
  unfold loadSchema at hs
  split at hs
  all_goals cases hs
  all_goals exact ⟨rfl, Nat.succ_ne_zero _⟩

end Umd.Reducer
