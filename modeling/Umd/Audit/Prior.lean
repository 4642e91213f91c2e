import Umd.Audit.Explain
import Umd.Lib.Slices
import Umd.Lib.Steps
/-!
# What was before a change

`AuditService.explain` replays only the events that name its subject. What it reports as prior is
what a replay of the whole ledger up to its latest event has for the subject, and this event
alone leads from there to what the whole ledger has (`explain_prior`); with a predicate this is
so for a subject that is never locked (`explain_prior_of`).
-/

namespace Umd.Audit

open Umd.Lib Umd.Events Umd.Reducer Umd.Ledger Umd.Projections

/-! ## What an event names -/

/-- The fields by which an event is found that hold a text, if anything. -/
def textKeys : List String := subjectKeys ++ ["predicate", "predicate_code"]

theorem textKeys_schema {etype : EventType} {v : Nat} {s : Schema} (hs : loadSchema etype v = some s) :
    ∃ req ps, s = .record req true ps ∧ (ps.all fun p => !textKeys.contains p.1 || p.2.isText) = true := by
  unfold loadSchema at hs
  split at hs
  all_goals cases hs
  all_goals exact ⟨_, _, rfl, by decide⟩

theorem key_text {ev : SemanticEvent} (h : Accepted ev) {key : String} (hkey : key ∈ textKeys) : ∃ o, ev.payload.get key = Json.ofStr? o := by
  obtain ⟨v, s, hs, hv⟩ := h
  obtain ⟨req, ps, rfl, hps⟩ := textKeys_schema hs
  cases hget : ev.payload.get? key with
  | none => exact ⟨none, Dict.get_of_none hget⟩
  | some j =>
    by_cases hm : key ∈ ps.map (·.1)
    · obtain ⟨⟨key', schema⟩, hp, rfl⟩ := List.mem_map.1 hm
      have htext := List.all_eq_true.1 hps _ hp
      simp only [List.contains_iff_mem.2 hkey, Bool.not_true, Bool.false_or] at htext
      obtain ⟨o, ho⟩ := Schema.text_valid htext (Schema.prop_valid hv hp hget)
      exact ⟨o, by rw [Dict.get, hget]; exact ho⟩
    · rw [Schema.closed_get hv hm] at hget
      cases hget

/-- An event with an identity is found by one field, and by no code. -/
theorem identity_schema {etype : EventType} (he : etype ∈ [EventType.EntityResolved, .OverrideApplied, .CorrectionApplied, .Invalidated])
    {v : Nat} {s : Schema} (hs : loadSchema etype v = some s) :
    ∃ req ps key, s = .record req true ps ∧ (∀ key' ∈ subjectKeys, key' ∈ ps.map (·.1) → key' = key) ∧ "predicate_code" ∉ ps.map (·.1) ∧
      (etype = .EntityResolved → "predicate" ∉ ps.map (·.1)) := by
  unfold loadSchema at hs
  split at hs <;> simp only [List.mem_cons, reduceCtorEq, List.not_mem_nil, or_false, or_self] at he
  all_goals cases hs
  · exact ⟨_, _, "entity_id", rfl, by decide, by decide, by decide⟩
  · exact ⟨_, _, "entity_id", rfl, by decide, by decide, by decide⟩
  all_goals exact ⟨_, _, "subject_ref", rfl, by decide, by decide, by decide⟩

variable {jsonbText : Json → String} {subject : String} {ev : SemanticEvent}

theorem asString_text (o : Option String) : asString jsonbText (Json.ofStr? o) = o := by
  cases o <;> rfl

theorem mentions_iff (h : Accepted ev) :
    mentions jsonbText subject ev.payload = true ↔ ∃ key ∈ subjectKeys, ev.payload.get key = .str subject := by
  simp only [mentions, List.any_eq_true, beq_iff_eq]
  refine exists_congr fun key => and_congr_right fun hkey => ?_
  obtain ⟨o, ho⟩ := key_text h (List.mem_append_left _ hkey)
  rw [ho, asString_text]
  cases o <;> simp [Json.ofStr?]

theorem firstRef_some {p : Dict} {keys : List String} {ref : String} (h : firstRef p keys = some ref) :
    ∃ key ∈ keys, (p.get key).truthy = true ∧ pyStr (p.get key) = ref := by
  induction keys with
  | nil => cases h
  | cons key keys ih =>
    rw [firstRef] at h
    split at h
    · next ht => exact ⟨key, List.mem_cons_self, ht, Option.some.inj h⟩
    · obtain ⟨key', hkey', hrest⟩ := ih h
      exact ⟨key', List.mem_cons_of_mem _ hkey', hrest⟩

/-- An event is found by the entity it addresses. -/
theorem mentions_entity (h : Accepted ev) (hr : entityRefOf ev = some subject) : mentions jsonbText subject ev.payload = true := by
  obtain ⟨key, hkey, htruthy, htext⟩ := firstRef_some hr
  have hmem : key ∈ subjectKeys := by
    simp only [subjectKeys, List.mem_cons] at hkey ⊢
    tauto
  obtain ⟨o, ho⟩ := key_text h (List.mem_append_left _ hmem)
  rw [mentions_iff h]
  refine ⟨key, hmem, ?_⟩
  rw [ho] at htruthy htext ⊢
  cases o with
  | none => cases htruthy
  | some s => exact congrArg Json.str htext

theorem identityEventTarget_type {k : Key} (h : identityEventTarget ev = some k) :
    ev.eventType ∈ [EventType.EntityResolved, .OverrideApplied, .CorrectionApplied, .Invalidated] := by
  have ht := (identityEventTarget_eq h).1
  unfold identityRef at ht
  split at ht
  · next hand => simp [hand.1]
  · split at ht
    · next hand => simp only [List.mem_cons] at hand ⊢; tauto
    · cases ht

/-- An event with an identity is found by the entity of this identity only. -/
theorem identity_entity (h : Accepted ev) {k : Key} (hk : identityEventTarget ev = some k)
    (hm : mentions jsonbText subject ev.payload = true) : entityRefOf ev = some subject := by
  have hentity := h.wellTargeted.identityEntity k hk
  obtain ⟨key₁, hkey₁, hvalue⟩ := (mentions_iff h).1 hm
  obtain ⟨key₂, hkey₂, htruthy, htext⟩ := firstRef_some hentity
  obtain ⟨v, s, hs, hv⟩ := h
  obtain ⟨req, ps, key, rfl, hone, -⟩ := identity_schema (identityEventTarget_type hk) hs
  have hthere : ∀ key' ∈ subjectKeys, ev.payload.get key' ≠ .null → key' = key := by
    intro key' hkey' hne
    refine hone key' hkey' ?_
    by_contra hnot
    exact hne (Dict.get_of_none (Schema.closed_get hv hnot))
  have hmem : key₂ ∈ subjectKeys := by
    simp only [subjectKeys, List.mem_cons] at hkey₂ ⊢
    tauto
  have h₁ := hthere key₁ hkey₁ (by rw [hvalue]; exact Json.noConfusion)
  have h₂ := hthere key₂ hmem fun hnull => by rw [hnull] at htruthy; cases htruthy
  rw [hentity, ← htext, h₂, ← h₁, hvalue]
  rfl

/-! ## What an event does for a subject -/

/-- What a fold has of a subject. -/
def subjectView (subject : String) (s : CurrentReducedState) : Bool × (String → Option CurrentStateRow) :=
  (s.locks subject, fun p => s.rows (subject, p))

theorem subjectView_eq {s t : CurrentReducedState} :
    subjectView subject s = subjectView subject t ↔ s.locks subject = t.locks subject ∧ ∀ p, s.rows (subject, p) = t.rows (subject, p) := by
  simp [subjectView, funext_iff]

/-- What an event writes is of the entity it addresses. -/
theorem writes_entity (hw : WellTargeted ev) {k : Key} (hk : k ∈ writes ev) : entityRefOf ev = some k.1 := by
  unfold writes at hk
  split at hk
  · split at hk
    · next ref hr =>
      rw [List.mem_singleton.1 hk]
      exact hr
    · cases hk
  · split at hk
    · cases hk
    · next target ht =>
      rcases List.mem_cons.1 hk with rfl | hk
      · exact eventTarget_entity (changeTarget_eq ht).1
      · exact hw.identityEntity k (Option.mem_toList.1 hk)

/-- An event that addresses another entity leaves the subject. -/
theorem reduce_other (hw : WellTargeted ev) (hne : entityRefOf ev ≠ some subject) {s s' : CurrentReducedState} (h : reduce s ev = .ok s') :
    subjectView subject s' = subjectView subject s := by
  rw [subjectView_eq]
  constructor
  · rw [reduce_locks h, lockStep, if_neg (by simp [hne])]
  · intro p
    cases hl : isLockEvent ev.eventType with
    | false =>
      rcases (reduce_change hl h).2 (subject, p) with he | ⟨hk, -⟩
      · exact he
      · exact absurd (writes_entity hw hk) hne
    | true =>
      rcases reduce_lock hl h with ⟨-, rfl⟩ | ⟨ref, hr, rfl⟩
      · rfl
      · have hother : subject ≠ ref := fun he => hne (he ▸ hr)
        rw [reduceLock_rows _ _ _ _ (by simp [hother])]
        simp [pinRows, hother]

/-- An event without an identity goes through. -/
theorem reduce_total (hid : identityEventTarget ev = none) (s : CurrentReducedState) : ∃ s', reduce s ev = .ok s' := by
  unfold reduce
  split
  · split <;> exact ⟨_, rfl⟩
  · split
    · exact ⟨_, rfl⟩
    · split
      · exact ⟨_, rfl⟩
      · unfold reduceChange
        split
        · exact ⟨_, rfl⟩
        · simp [identityKey, hid]

/-- An event that addresses the subject does the same wherever the subject is the same. -/
theorem reduce_same (hw : WellTargeted ev) (hr : entityRefOf ev = some subject) {s t s' : CurrentReducedState}
    (hst : subjectView subject s = subjectView subject t) (h : reduce s ev = .ok s') :
    ∃ t', reduce t ev = .ok t' ∧ subjectView subject s' = subjectView subject t' := by
  obtain ⟨hlocks, hrows⟩ := subjectView_eq.1 hst
  have hseed : ∀ p, s.rowOrSeed (subject, p) = t.rowOrSeed (subject, p) := fun p => by
    simp [CurrentReducedState.rowOrSeed, hrows]
  unfold reduce at h ⊢
  split at h
  · next hl =>
    rw [hr] at h
    cases h
    refine ⟨reduceLock t ev subject _, by rw [if_pos hl, hr], subjectView_eq.2 ⟨by simp, fun p => ?_⟩⟩
    by_cases hp : p = lockPredicate
    · subst hp
      rw [reduceLock_marker, reduceLock_marker]
      simp [pinRows, hrows]
    · rw [reduceLock_rows _ _ _ _ (by simp [hp]), reduceLock_rows _ _ _ _ (by simp [hp])]
      simp [pinRows, hrows]
  · next hl =>
    rw [if_neg hl]
    split at h
    · cases h
      exact ⟨t, rfl, hst⟩
    · next target htarget =>
      obtain ⟨ref, p⟩ := target
      obtain rfl : ref = subject := Option.some.inj ((eventTarget_entity htarget).symm.trans hr)
      split at h
      · next hstar =>
        cases h
        exact ⟨t, by rw [if_pos hstar], hst⟩
      · next hstar =>
        rw [if_neg hstar]
        unfold reduceChange at h ⊢
        rw [← hlocks, ← hseed p]
        split at h
        · next hlocked =>
          cases h
          exact ⟨t, by rw [if_pos hlocked], hst⟩
        · next hfree =>
          rw [if_neg hfree]
          have hkey : identityKey t ev = identityKey s ev := by
            unfold identityKey
            cases hid : identityEventTarget ev with
            | none => rfl
            | some k =>
              obtain hk : ref = k.1 := Option.some.inj (hr.symm.trans (hw.identityEntity k hid))
              simp [← hk, hlocks]
          rw [hkey]
          have hupd : ∀ (row : CurrentStateRow) (q : String), upd s.rows (ref, p) (some row) (ref, q) = upd t.rows (ref, p) (some row) (ref, q) := by
            intro row q
            unfold upd
            rw [hrows]
          cases hid : identityKey s ev with
          | none =>
            simp only [hid, Except.ok.injEq] at h
            subst h
            exact ⟨_, rfl, subjectView_eq.2 ⟨hlocks, hupd _⟩⟩
          | some k =>
            obtain ⟨ref', q⟩ := k
            have hidentity : identityEventTarget ev = some (ref', q) := by
              unfold identityKey at hid
              split at hid
              · split at hid
                · cases hid
                · cases hid
                  assumption
              · cases hid
            obtain rfl : ref = ref' := Option.some.inj (hr.symm.trans (hw.identityEntity _ hidentity))
            simp only [hid, bind, Except.bind] at h
            simp only [← hseed q]
            cases hrow : reduceCanonicalIdentity (s.rowOrSeed (ref, q)) ev with
            | error e => simp [hrow] at h
            | ok row =>
              simp only [hrow, pure, Except.pure, Except.ok.injEq] at h
              subst h
              refine ⟨_, rfl, subjectView_eq.2 ⟨hlocks, fun p' => ?_⟩⟩
              unfold upd at hupd ⊢
              dsimp only
              split
              · rfl
              · exact hupd _ p'

/-- Only the events that are found show in a subject. -/
theorem sliced_subject (jsonbText : Json → String) (subject : String) (h : Accepted ev) :
    Sliced reduce (fun ev => mentions jsonbText subject ev.payload) (subjectView subject) ev where
  skip hm s s' hs := by
    refine reduce_other h.wellTargeted (fun hr => ?_) hs
    rw [mentions_entity h hr] at hm
    cases hm
  keep hm s t s' hst hs := by
    by_cases hr : entityRefOf ev = some subject
    · exact reduce_same h.wellTargeted hr hst hs
    · have hid : identityEventTarget ev = none := by
        cases hk : identityEventTarget ev with
        | none => rfl
        | some k => exact absurd (identity_entity h hk hm) hr
      obtain ⟨t', ht⟩ := reduce_total hid t
      refine ⟨t', ht, ?_⟩
      rw [reduce_other h.wellTargeted hr hs, reduce_other h.wellTargeted hr ht, hst]

/-! ## One predicate -/

/-- The predicates that events without a predicate write to. -/
def impliedPredicates : List String := ["CANONICAL_ENTITY", "CANDIDATE", canonicalIdentity]

variable {predicate : String}

theorem hasPredicate_iff (h : Accepted ev) : hasPredicate jsonbText predicate ev.payload = true ↔
    ev.payload.get "predicate_code" = .str predicate ∨ ev.payload.get "predicate" = .str predicate := by
  obtain ⟨o, ho⟩ := key_text h (by decide : "predicate_code" ∈ textKeys)
  obtain ⟨o', ho'⟩ := key_text h (by decide : "predicate" ∈ textKeys)
  rw [hasPredicate, Bool.or_eq_true, beq_iff_eq, beq_iff_eq, ho, ho', asString_text, asString_text]
  cases o <;> cases o' <;> simp [Json.ofStr?]

/-- The row of a predicate is written by events with this predicate. -/
theorem target_predicate (h : Accepted ev) (hl : isLockEvent ev.eventType = false) (hp : predicate ∉ impliedPredicates) {ref : String}
    (ht : eventTarget ev = some (ref, predicate)) : hasPredicate jsonbText predicate ev.payload = true := by
  obtain ⟨o, ho⟩ := key_text h (by decide : "predicate_code" ∈ textKeys)
  obtain ⟨o', ho'⟩ := key_text h (by decide : "predicate" ∈ textKeys)
  simp only [impliedPredicates, List.mem_cons, List.not_mem_nil, or_false, not_or] at hp
  rw [hasPredicate_iff h, ho, ho']
  unfold eventTarget at ht
  rw [ho, ho', hl] at ht
  split at ht
  · cases ht
  · split at ht
    · cases ht
    · rw [if_neg Bool.false_ne_true] at ht
      split at ht
      · split at ht
        · exact absurd (Prod.mk.inj (Option.some.inj ht)).2.symm hp.1
        · split at ht
          · exact absurd (Prod.mk.inj (Option.some.inj ht)).2.symm hp.2.1
          · cases ht
      · have htext := (Prod.mk.inj (Option.some.inj ht)).2
        unfold pyOr at htext
        split at htext
        · next htruthy =>
          cases o' with
          | none => cases htruthy
          | some q => exact .inr (congrArg Json.str htext)
        · cases o with
          | none => simp_all [pyOr, Json.ofStr?]
          | some q => exact .inl (congrArg Json.str htext)

/-- What an event without an identity does that is no lock event. -/
def plainStep (s : CurrentReducedState) (ev : SemanticEvent) : Option Key → CurrentReducedState
  | none => s
  | some target =>
    if s.locks target.1 then s else { s with rows := upd s.rows target (some (reduceCurrentState (s.rowOrSeed target) ev)) }

theorem reduce_plain (hl : isLockEvent ev.eventType = false) (hid : identityEventTarget ev = none) (s : CurrentReducedState) :
    reduce s ev = .ok (plainStep s ev (changeTarget ev)) := by
  unfold reduce changeTarget
  rw [hl, if_neg Bool.false_ne_true]
  cases eventTarget ev with
  | none => rfl
  | some target =>
    by_cases hstar : target.2 = "*"
    · simp [hstar, plainStep, Option.filter]
    · simp only [hstar, if_false, reduceChange, identityKey, hid, Option.filter, ne_eq, not_false_eq_true, decide_true, if_true, plainStep]
      split <;> rfl

/-- An event with another predicate has no identity. -/
theorem identity_predicate (h : Accepted ev) (hp : predicate ≠ canonicalIdentity) (hm : hasPredicate jsonbText predicate ev.payload = true) :
    identityEventTarget ev = none := by
  cases hk : identityEventTarget ev with
  | none => rfl
  | some k =>
    have htype := identityEventTarget_type hk
    rw [hasPredicate_iff h] at hm
    have htruthy := (identityEventTarget_eq hk).1
    obtain ⟨v, s, hs, hv⟩ := h
    obtain ⟨req, ps, key, rfl, -, hcode, hresolved⟩ := identity_schema htype hs
    rw [Dict.get_of_none (Schema.closed_get hv hcode)] at hm
    have hpredicate : ev.payload.get "predicate" = .str predicate := hm.resolve_left Json.noConfusion
    have hne : ev.eventType ≠ .EntityResolved := by
      intro he
      rw [Dict.get_of_none (Schema.closed_get hv (hresolved he))] at hpredicate
      cases hpredicate
    unfold identityRef at htruthy
    rw [if_neg (fun hand => hne hand.1), hpredicate, if_neg (fun hand => hp (Json.str.inj (Json.isStr_iff.1 hand.2)))] at htruthy
    cases htruthy

/-- What a fold has of a subject and a predicate. -/
def rowView (subject predicate : String) (s : CurrentReducedState) : Bool × Option CurrentStateRow :=
  (s.locks subject, s.rows (subject, predicate))

/-- Only the events with the predicate show in its row, where none locks the subject. -/
theorem sliced_row (jsonbText : Json → String) (subject : String) (hp : predicate ∉ impliedPredicates) (h : Accepted ev)
    (hfree : isLockEvent ev.eventType = true → entityRefOf ev ≠ some subject) :
    Sliced reduce (fun ev => mentions jsonbText subject ev.payload && hasPredicate jsonbText predicate ev.payload) (rowView subject predicate) ev := by
  have hne : predicate ≠ canonicalIdentity := fun he => hp (by simp [impliedPredicates, he])
  have hother : entityRefOf ev ≠ some subject → ∀ {s s' : CurrentReducedState}, reduce s ev = .ok s' →
      rowView subject predicate s' = rowView subject predicate s := by
    intro hr s s' hs
    obtain ⟨hlocks, hrows⟩ := subjectView_eq.1 (reduce_other h.wellTargeted hr hs)
    exact Prod.ext hlocks (hrows predicate)
  constructor
  · intro hm s s' hs
    by_cases hr : entityRefOf ev = some subject
    · have hl : isLockEvent ev.eventType = false := Bool.eq_false_iff.2 fun hl => hfree hl hr
      have hno : hasPredicate jsonbText predicate ev.payload = false := by simpa [mentions_entity h hr] using hm
      obtain ⟨hlocks, hrows⟩ := reduce_change hl hs
      refine Prod.ext (congrFun hlocks subject) ?_
      rcases hrows (subject, predicate) with he | ⟨hk, -⟩
      · exact he
      · exfalso
        unfold writes at hk
        rw [hl, if_neg Bool.false_ne_true] at hk
        split at hk
        · cases hk
        · next target ht =>
          rcases List.mem_cons.1 hk with rfl | hk
          · rw [target_predicate h hl hp (changeTarget_eq ht).1] at hno
            cases hno
          · exact hne (identityEventTarget_predicate (Option.mem_toList.1 hk))
    · exact hother hr hs
  · intro hm s t s' hst hs
    rw [Bool.and_eq_true] at hm
    have hid := identity_predicate h hne hm.2
    obtain ⟨t', ht⟩ := reduce_total hid t
    refine ⟨t', ht, ?_⟩
    by_cases hr : entityRefOf ev = some subject
    · have hl : isLockEvent ev.eventType = false := Bool.eq_false_iff.2 fun hl => hfree hl hr
      obtain ⟨hlocks, hrow⟩ := Prod.mk.inj hst
      rw [reduce_plain hl hid] at hs ht
      cases hs
      cases ht
      cases htarget : changeTarget ev with
      | none => exact hst
      | some target =>
        obtain ⟨ref, p⟩ := target
        obtain rfl : ref = subject := Option.some.inj ((eventTarget_entity (changeTarget_eq htarget).1).symm.trans hr)
        simp only [plainStep, ← hlocks]
        split
        · exact hst
        · refine Prod.ext hlocks ?_
          by_cases he : predicate = p
          · subst he
            simp [rowView, CurrentReducedState.rowOrSeed, hrow]
          · simp [rowView, upd_ne, he, hrow]
    · rw [hother hr hs, hother hr ht, hst]

/-! ## What is explained -/

/-- A stored row reads as its replay does. -/
theorem reduce_read {r : EventRow} (h : Prepared r) (s : CurrentReducedState) : reduce s (readEvent r) = reduce s (upcast r) := by
  have hread : readEvent r = { upcast r with correlationId := r.correlationId, causationId := r.causationId } := by
    have hpayload := h.payload
    cases hu : upcast r
    simp_all [readEvent, upcast]
  rw [hread]
  rfl

theorem reduceAll_foldlM (s : CurrentReducedState) (evs : List SemanticEvent) : reduceAll s evs = evs.foldlM reduce s := by
  induction evs generalizing s with
  | nil => rfl
  | cons ev evs ih => exact bind_congr fun s' => ih s'

/-- The ledger up to a time. -/
def visible (txTime : EventRow → Nat) (rows : List EventRow) (asOf : Option Nat) : List EventRow :=
  rows.filter fun row => asOf.all fun time => decide (txTime row ≤ time)

variable {txTime : EventRow → Nat} {rows : List EventRow}

theorem events_eq {asOf : Option Nat} (ho : (rows.map (·.seq)).Pairwise (· < ·)) (predicate : Option String) :
    events jsonbText txTime rows subject predicate { asOf } =
      ((visible txTime rows asOf).filter fun row => about jsonbText subject predicate row.payload).map readEvent := by
  unfold events visible
  rw [List.filter_filter]
  have hadmits : ∀ row, (about jsonbText subject predicate row.payload && Narrowing.admits txTime { asOf } row) =
      (about jsonbText subject predicate row.payload && asOf.all fun time => decide (txTime row ≤ time)) := fun row => by
    simp [Narrowing.admits]
  simp only [hadmits]
  rw [List.Pairwise.insertionSort_eq]
  rw [List.pairwise_map] at ho
  exact (ho.imp Nat.le_of_lt).sublist List.filter_sublist

/-- Events that are not replayed change nothing. -/
theorem reduceAll_semantic (s : CurrentReducedState) (evs : List SemanticEvent) :
    reduceAll s (evs.filter (·.isSemantic)) = reduceAll s evs := by
  induction evs generalizing s with
  | nil => rfl
  | cons ev evs ih =>
    cases hsem : ev.isSemantic with
    | true =>
      rw [List.filter_cons_of_pos hsem]
      exact bind_congr fun s' => ih s'
    | false =>
      have htype : ev.eventType = .JobRunAudit := by simpa [SemanticEvent.isSemantic] using hsem
      have hsame : reduce s ev = .ok s := by simp [reduce, htype, isLockEvent, eventTarget, nonSemantic]
      rw [List.filter_cons_of_neg (by simp [hsem]), reduceAll, hsame]
      exact ih s

/-- A row of the log, as a replay folds it. -/
def replayRow (s : CurrentReducedState) (row : EventRow) : Except PyError CurrentReducedState := reduce s (upcast row)

theorem replay_rows (rows : List EventRow) : replay (logOf rows) = rows.foldlM replayRow {} := by
  rw [replay, logOf, reduceAll_semantic, reduceAll_foldlM, List.foldlM_map]
  rfl

theorem replay_read (hprep : ∀ r ∈ rows, Prepared r) : replay (rows.map readEvent) = rows.foldlM replayRow {} := by
  rw [replay, reduceAll_foldlM, List.foldlM_map]
  generalize ({} : CurrentReducedState) = s
  induction rows generalizing s with
  | nil => rfl
  | cons r rows ih =>
    rw [List.foldlM_cons, List.foldlM_cons, reduce_read (hprep r List.mem_cons_self)]
    exact bind_congr fun s' => ih (fun r' hr' => hprep r' (List.mem_cons_of_mem _ hr')) s'

theorem sliced_replay {α : Type} {relevant : Dict → Bool} {view : CurrentReducedState → α} {r : EventRow} (hprep : Prepared r)
    (h : Sliced reduce (fun ev => relevant ev.payload) view (upcast r)) : Sliced replayRow (fun r => relevant r.payload) view r :=
  ⟨fun hm _ _ hs => h.skip (by rw [hprep.payload]; exact hm) hs, fun hm _ _ _ hst hs => h.keep (by rw [hprep.payload]; exact hm) hst hs⟩

/-- What an explanation says of the log it sees: its history are the events about the subject, its prior the rows before the
latest of them, and this event alone leads from there to the rows that are there now. -/
structure Explains (jsonbText : Json → String) (log : List EventRow) (now : CurrentReducedState) (subject : String)
    (predicate : Option String) (e : ChangeExplanation) : Prop where
  history : e.history = (log.filter fun r => about jsonbText subject predicate r.payload).map fun r => historyEntry (readEvent r)
  changed : ∃ pre latest post before after, log = pre ++ latest :: post ∧ about jsonbText subject predicate latest.payload = true ∧
    (∀ r ∈ post, about jsonbText subject predicate r.payload = false) ∧ replay (logOf pre) = .ok before ∧
    reduce before (upcast latest) = .ok after ∧ e.prior = narrowRows predicate (rowsOf before subject) ∧
    narrowRows predicate (rowsOf now subject) = narrowRows predicate (rowsOf after subject)

variable {db : Db} {asOf : Option Nat} {now : CurrentReducedState}

theorem stored_of_run (h : Run appendStep Any {} db) : Stored db :=
  h.inv Stored .empty fun db call db' hdb _ hstep => by
    cases hstep
    exact hdb.append call

/-- Where only the events about a subject show in its rows, they explain it. -/
theorem explains_of_sliced {α : Type} (view : CurrentReducedState → α) {asked : String} {predicate : Option String}
    (hstored : Stored db) (hsplit : splitSubject asked = (subject, predicate))
    (hview : ∀ s t, view s = view t → narrowRows predicate (rowsOf s subject) = narrowRows predicate (rowsOf t subject))
    (hsliced : ∀ r ∈ visible txTime db.events asOf,
      Sliced reduce (fun ev => about jsonbText subject predicate ev.payload) view (upcast r))
    (hsome : ∃ r ∈ visible txTime db.events asOf, about jsonbText subject predicate r.payload = true)
    (hnow : replay (logOf (visible txTime db.events asOf)) = .ok now) :
    ∃ e, explain jsonbText txTime db asked { asOf } = .ok e ∧
      Explains jsonbText (visible txTime db.events asOf) now subject predicate e := by
  have hprep : ∀ r ∈ visible txTime db.events asOf, Prepared r := fun r hr => hstored.prepared r (List.mem_of_mem_filter hr)
  have hevents := @events_eq jsonbText subject txTime db.events asOf hstored.ordered predicate
  generalize visible txTime db.events asOf = log at *
  rw [replay_rows] at hnow
  obtain ⟨pre, latest, post, before, after, folded, rfl, hlatest, hpost, hbefore, hafter, hnow', hfilter, hfolded, hview'⟩ :=
    foldlM_last (fun r hr => sliced_replay (hprep r hr) (hsliced r hr)) hsome hnow
  rw [hfilter, List.map_append, List.map_singleton] at hevents
  have hprior : priorValue (events jsonbText txTime db.events subject predicate { asOf }) subject predicate =
      .ok (narrowRows predicate (rowsOf before subject)) := by
    have hread : ∀ r ∈ pre.filter fun r => about jsonbText subject predicate r.payload, Prepared r := fun r hr =>
      hprep r (List.mem_append_left _ (List.mem_of_mem_filter hr))
    rw [priorValue, hevents, List.dropLast_concat, replay_read hread, hfolded, hview _ _ hview']
    rfl
  unfold explain
  simp only [hsplit, hprior]
  rw [hevents, List.getLast?_concat]
  refine ⟨_, rfl, ⟨?_, pre, latest, post, before, after, rfl, hlatest, hpost, ?_, hafter, rfl, hview _ _ hnow'⟩⟩
  · rw [hfilter, List.map_append, List.map_append, List.map_map]
    rfl
  · rw [replay_rows, hbefore]

theorem splitSubject_plain (h : '#' ∉ subject.toList) : splitSubject subject = (subject, none) := by
  have hspan : subject.toList.span (· ≠ '#') = (subject.toList, []) := by
    rw [List.span_eq_takeWhile_dropWhile, List.takeWhile_eq_self_iff.2, List.dropWhile_eq_nil_iff.2]
    all_goals
      intro c hc
      have hne : c ≠ '#' := ne_of_mem_of_not_mem hc h
      simp [hne]
  rw [splitSubject, hspan]

theorem splitSubject_narrowed (h : '#' ∉ subject.toList) (predicate : String) :
    splitSubject (subject ++ "#" ++ predicate) = (subject, some predicate) := by
  have htext : (subject ++ "#" ++ predicate).toList = subject.toList ++ '#' :: predicate.toList := by simp
  have hspan : (subject.toList ++ '#' :: predicate.toList).span (· ≠ '#') = (subject.toList, '#' :: predicate.toList) := by
    have hall : ∀ c ∈ subject.toList, decide (c ≠ '#') = true := fun c hc => decide_eq_true (ne_of_mem_of_not_mem hc h)
    rw [List.span_eq_takeWhile_dropWhile, List.takeWhile_append_of_pos hall, List.dropWhile_append_of_pos hall]
    simp
  rw [splitSubject, htext, hspan]
  simp

/-- **In every ledger, also when it is read up to a time, the events that name a subject explain it: what they report as prior are
its rows in a replay of everything before the latest of them, and this event alone leads from there to its rows now.** -/
theorem explain_prior (h : Run appendStep Any {} db) (hname : '#' ∉ subject.toList)
    (hsome : ∃ r ∈ visible txTime db.events asOf, mentions jsonbText subject r.payload = true)
    (hnow : replay (logOf (visible txTime db.events asOf)) = .ok now) :
    ∃ e, explain jsonbText txTime db subject { asOf } = .ok e ∧ Explains jsonbText (visible txTime db.events asOf) now subject none e := by
  have hstored := stored_of_run h
  refine explains_of_sliced (subjectView subject) hstored (splitSubject_plain hname) (fun s t hst => ?_) (fun r hr => ?_) ?_ hnow
  · obtain ⟨-, hrows⟩ := subjectView_eq.1 hst
    funext p
    simp [narrowRows, rowsOf, hrows]
  · have hsliced := sliced_subject jsonbText subject (hstored.prepared r (List.mem_of_mem_filter hr)).accepted
    simpa [about, asked] using hsliced
  · simpa [about, asked] using hsome

/-- An assertion of what an entity speaks. -/
def spoken (object : String) : Call :=
  one .SemanticAsserted [("predicate_code", .str "SPEAKS"), ("subject_ref", .str "e"), ("object_ref", .str object), ("scope", .str "GLOBAL")]

/-- The ledger after calls one after another. -/
def ledgerOf (calls : List Call) : Db := calls.foldl (fun db call => (append db call).1) {}

theorem run_ledgerOf (calls : List Call) : Run appendStep Any {} (ledgerOf calls) := by
  refine List.reverseRecOn calls .refl fun calls call ih => ?_
  rw [ledgerOf, List.foldl_append]
  exact .step ih trivial rfl

theorem explain_prior_twice : ∃ now e, replay (logOf (ledgerOf [spoken "a", spoken "b"]).events) = .ok now ∧
    explain pyStr (·.seq) (ledgerOf [spoken "a", spoken "b"]) "e" {} = .ok e ∧
    Explains pyStr (ledgerOf [spoken "a", spoken "b"]).events now "e" none e := by
  obtain ⟨e, he, hexplains⟩ := @explain_prior pyStr "e" (·.seq) (ledgerOf [spoken "a", spoken "b"]) none _ (run_ledgerOf _)
    (by decide) ⟨_, List.mem_cons_self, by decide⟩ rfl
  exact ⟨_, e, rfl, he, hexplains⟩

/-- **With a predicate this is so for a subject that is never locked.** -/
theorem explain_prior_of (h : Run appendStep Any {} db) (hname : '#' ∉ subject.toList) {predicate : String} (hempty : predicate ≠ "")
    (hp : predicate ∉ impliedPredicates)
    (hfree : ∀ r ∈ visible txTime db.events asOf, isLockEvent r.eventType = true → entityRefOf (upcast r) ≠ some subject)
    (hsome : ∃ r ∈ visible txTime db.events asOf, about jsonbText subject (some predicate) r.payload = true)
    (hnow : replay (logOf (visible txTime db.events asOf)) = .ok now) :
    ∃ e, explain jsonbText txTime db (subject ++ "#" ++ predicate) { asOf } = .ok e ∧
      Explains jsonbText (visible txTime db.events asOf) now subject (some predicate) e := by
  have hstored := stored_of_run h
  refine explains_of_sliced (rowView subject predicate) hstored (splitSubject_narrowed hname predicate) (fun s t hst => ?_)
    (fun r hr => ?_) hsome hnow
  · funext p
    simp only [narrowRows, rowsOf, asked, Option.filter, hempty, ne_eq, not_false_eq_true, decide_true, if_true, Option.all_some,
      decide_eq_true_eq]
    split
    · next he =>
      subst he
      rw [(Prod.mk.inj hst).2]
    · rfl
  · have hsliced := sliced_row jsonbText subject hp (hstored.prepared r (List.mem_of_mem_filter hr)).accepted (hfree r hr)
    simpa [about, asked, Option.filter, hempty] using hsliced

theorem explain_prior_of_twice : ∃ now e, replay (logOf (ledgerOf [spoken "a", spoken "b"]).events) = .ok now ∧
    explain pyStr (·.seq) (ledgerOf [spoken "a", spoken "b"]) "e#SPEAKS" {} = .ok e ∧
    Explains pyStr (ledgerOf [spoken "a", spoken "b"]).events now "e" (some "SPEAKS") e := by
  obtain ⟨e, he, hexplains⟩ := @explain_prior_of pyStr "e" (·.seq) (ledgerOf [spoken "a", spoken "b"]) none _ (run_ledgerOf _)
    (by decide) "SPEAKS" (by decide) (by decide) (by decide) ⟨_, List.mem_cons_self, by decide⟩ rfl
  exact ⟨_, e, rfl, he, hexplains⟩

/-- What a locked entity is said to speak is reported as prior, which its row never had. -/
theorem locked_prior : ∃ e before, explain pyStr (·.seq)
      (ledgerOf [spoken "a", one .Locked [("entity_ref", .str "e")], spoken "b", spoken "c"]) "e#SPEAKS" {} = .ok e ∧
    (e.prior "SPEAKS").map (·.objectRef) = some (some "b") ∧
    replay (logOf (ledgerOf [spoken "a", one .Locked [("entity_ref", .str "e")], spoken "b"]).events) = .ok before ∧
    (before.rows ("e", "SPEAKS")).map (·.objectRef) = some (some "a") :=
  ⟨_, _, rfl, rfl, rfl, rfl⟩

end Umd.Audit
