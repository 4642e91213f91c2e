import Umd.Storage.InlineFold
import Umd.Projections.Edges
/-!
# What an event does to the edges

On a stored event `applyEdge` does not raise, and it is a `Change`: the active
edges a target hits are deactivated or marked, and one row is put
(`applyEdge_eq`).
-/

namespace Umd.Projections

open Umd.Lib Umd.Events Umd.Reducer Umd.Ledger

/-! ## The fields of a stored event -/

/-- `_EDGE_EVENT_TYPES`. -/
def edgeEventTypes : List EventType :=
  [.SemanticAsserted, .OverrideApplied, .CorrectionApplied, .Invalidated, .ContradictionRecorded]

/-- The fields of these events that hold a text, if anything. -/
def edgeTexts : List String :=
  ["predicate_code", "subject_ref", "object_ref", "predicate", "prior_ref", "relationship_type", "scope",
   "contradicting_ref", "authority"]

/-- The fields that hold a list of texts, if anything. -/
def edgeLists : List String := ["refs", "contradiction_refs"]

/-- A property of a retained schema has the type its name says. -/
def textProps (ps : List (String × Schema)) : Bool :=
  ps.all fun p => (!edgeTexts.contains p.1 || p.2.isText) && (!edgeLists.contains p.1 || p.2.isTexts)

theorem edge_schema {etype : EventType} (he : etype ∈ edgeEventTypes) {v : Nat} {s : Schema} (hs : loadSchema etype v = some s) :
    ∃ req ps, s = .record req true ps ∧ textProps ps = true := by
  unfold loadSchema at hs
  split at hs <;> simp only [edgeEventTypes, List.mem_cons, reduceCtorEq, List.not_mem_nil, or_false, or_self] at he
  all_goals cases hs <;> exact ⟨_, _, rfl, by decide⟩

/-- A field of a closed record is absent, or it conforms to its schema. -/
theorem record_field {req : List String} {ps : List (String × Schema)} {d : Dict}
    (hv : (Schema.record req true ps).valid (.obj d) = true) (k : String) :
    d.get? k = none ∨ ∃ s v, (k, s) ∈ ps ∧ d.get? k = some v ∧ s.valid v = true := by
  cases hk : d.get? k with
  | none => exact .inl rfl
  | some v =>
    by_cases hm : k ∈ ps.map (·.1)
    · obtain ⟨⟨k', s⟩, hp, rfl⟩ := List.mem_map.1 hm
      exact .inr ⟨s, v, hp, rfl, Schema.prop_valid hv hp hk⟩
    · rw [Schema.closed_get hv hm] at hk
      cases hk

theorem edge_text {ev : SemanticEvent} (h : Accepted ev) (he : ev.eventType ∈ edgeEventTypes) {k : String}
    (hk : edgeTexts.contains k = true) : ∃ o, ev.payload.get k = Json.ofStr? o := by
  obtain ⟨v, s, hs, hv⟩ := h
  obtain ⟨req, ps, rfl, hps⟩ := edge_schema he hs
  rcases record_field hv k with hn | ⟨s, j, hm, hj, hsv⟩
  · exact ⟨none, Dict.get_of_none hn⟩
  · have hp := List.all_eq_true.1 hps _ hm
    simp only [hk, Bool.not_true, Bool.false_or, Bool.and_eq_true] at hp
    rw [Dict.get, hj]
    exact Schema.text_valid hp.1 hsv

theorem edge_list {ev : SemanticEvent} (h : Accepted ev) (he : ev.eventType ∈ edgeEventTypes) {k : String}
    (hk : edgeLists.contains k = true) : ev.payload.get k = .null ∨ ∃ xs : List String, ev.payload.get k = .arr (xs.map .str) := by
  obtain ⟨v, s, hs, hv⟩ := h
  obtain ⟨req, ps, rfl, hps⟩ := edge_schema he hs
  rcases record_field hv k with hn | ⟨s, j, hm, hj, hsv⟩
  · exact .inl (Dict.get_of_none hn)
  · have hp := List.all_eq_true.1 hps _ hm
    simp only [hk, Bool.not_true, Bool.false_or, Bool.and_eq_true] at hp
    rw [Dict.get, hj]
    exact .inr (Schema.texts_valid hp.2 hsv)

/-! ## Changes -/

/-- What an event does to the edges there are, and the edge it puts. -/
structure Change where
  deactivates : Option Target := none
  marks : Option (Target × List String) := none
  puts : Option EdgeRow := none

/-- The strings of a list. -/
def texts : Json → List String
  | .arr xs => xs.filterMap Json.str?
  | _ => []

/-- The refs added in turn, each once. -/
def addTexts (merged refs : List String) : List String :=
  refs.foldl (fun merged ref => if ref ∈ merged then merged else merged ++ [ref]) merged

/-- The refs of a row that is marked. -/
def EdgeRow.mergedTexts (r : EdgeRow) (refs : List String) : List String :=
  addTexts (addTexts [] (texts r.contradictionRefs)) refs

/-- The row after the change. -/
def Change.touch (c : Change) (seq : Nat) (r : EdgeRow) : EdgeRow :=
  if c.deactivates.any (·.hits r) then r.deactivated seq
  else match c.marks with
    | some (target, refs) => if target.hits r then r.conflicting ((r.mergedTexts refs).map .str) seq else r
    | none => r

theorem hits_inactive {r : EdgeRow} (h : r.active = false) (c : Target) : c.hits r = false := by simp [Target.hits, h]

theorem any_hits_inactive {r : EdgeRow} (h : r.active = false) (o : Option Target) : o.any (·.hits r) = false := by
  cases o with
  | none => rfl
  | some c => exact hits_inactive h c

/-- No change touches an inactive row. -/
theorem touch_inactive {r : EdgeRow} (h : r.active = false) (c : Change) (n : Nat) : c.touch n r = r := by
  unfold Change.touch
  rw [if_neg (by rw [any_hits_inactive h]; exact Bool.false_ne_true)]
  split
  · rw [if_neg (by rw [hits_inactive h]; exact Bool.false_ne_true)]
  · rfl

/-- The table after the change. -/
def Change.on (c : Change) (seq : Nat) (t : EdgeTable) : EdgeTable :=
  match c.puts with
  | none => t.map (c.touch seq)
  | some row => EdgeTable.upsert (t.map (c.touch seq)) row

/-- The text under a key. -/
def textAt (ev : SemanticEvent) (k : String) : Option String := (ev.payload.get k).str?

/-- The target of an override or a correction. -/
def overrideTarget (ev : SemanticEvent) (subj pred : String) : Target where
  subjectRef := subj
  predicate := some pred
  relationshipType := textAt ev "relationship_type"
  priorRef := if ev.eventType = .CorrectionApplied then nonEmpty (textAt ev "prior_ref") else none

/-- The edge an override or a correction puts. -/
def overrideRow (ev : SemanticEvent) (subj pred obj : String) : EdgeRow :=
  edgeValues (overrideFactId ev.eventType subj pred obj (textAt ev "relationship_type")) pred subj (some obj) ev
    (ev.seq.getD 0) (.str "USER_CONFIRMED") (.str userOverride)

/-- The edge an assertion puts. -/
def assertedRow (ev : SemanticEvent) (subj pred : String) : EdgeRow :=
  edgeValues (assertionFactId ev.payload 3) pred subj (textAt ev "object_ref") ev (ev.seq.getD 0)
    (pyOr (ev.payload.get "state") (.str "UNKNOWN")) (assertedAuthority ev)

/-- The target of an invalidation. -/
def invalidatedTarget (ev : SemanticEvent) (subj : String) : Target where
  subjectRef := subj
  predicate := nonEmpty (textAt ev "predicate")
  scope := nonEmpty (textAt ev "scope")
  relationshipType := textAt ev "relationship_type"

/-- The target of a contradiction. -/
def contradictedTarget (ev : SemanticEvent) (subj pred : String) : Target where
  subjectRef := subj
  predicate := some pred
  relationshipType := textAt ev "relationship_type"

/-- The refs a contradiction adds. -/
def contradictingRefs (ev : SemanticEvent) : List String :=
  texts (ev.payload.get "refs") ++ (textAt ev "contradicting_ref").toList

/-- The change an event makes while `locks` are in force. -/
def changeOf (locks : String → Bool) (ev : SemanticEvent) : Change :=
  match nonEmpty (textAt ev "subject_ref") with
  | none => {}
  | some subj =>
    match ev.eventType with
    | .SemanticAsserted =>
      match nonEmpty (textAt ev "predicate_code") with
      | some pred => if locks subj then {} else { puts := some (assertedRow ev subj pred) }
      | none => {}
    | .OverrideApplied | .CorrectionApplied =>
      match nonEmpty (textAt ev "predicate") with
      | some pred =>
        if locks subj then {}
        else
          { deactivates := some (overrideTarget ev subj pred)
            puts := (textAt ev "object_ref").map (overrideRow ev subj pred) }
      | none => {}
    | .Invalidated => { deactivates := some (invalidatedTarget ev subj) }
    | .ContradictionRecorded =>
      match nonEmpty (textAt ev "predicate") with
      | some pred => { marks := some (contradictedTarget ev subj pred, contradictingRefs ev) }
      | none => {}
    | _ => {}

/-- Which edge an event puts. -/
inductive Puts (locks : String → Bool) (ev : SemanticEvent) : EdgeRow → Prop
  | asserted {subj pred : String} (he : ev.eventType = .SemanticAsserted)
      (hs : nonEmpty (textAt ev "subject_ref") = some subj) (hp : nonEmpty (textAt ev "predicate_code") = some pred)
      (hl : locks subj = false) : Puts locks ev (assertedRow ev subj pred)
  | override {subj pred obj : String} (he : isOverride ev.eventType = true)
      (hs : nonEmpty (textAt ev "subject_ref") = some subj) (hp : nonEmpty (textAt ev "predicate") = some pred)
      (ho : textAt ev "object_ref" = some obj) (hl : locks subj = false) : Puts locks ev (overrideRow ev subj pred obj)

/-- The change of an override or a correction. -/
theorem changeOf_override {locks : String → Bool} {ev : SemanticEvent} (he : isOverride ev.eventType = true) :
    changeOf locks ev =
      match nonEmpty (textAt ev "subject_ref"), nonEmpty (textAt ev "predicate") with
      | some subj, some pred =>
        if locks subj then {}
        else
          { deactivates := some (overrideTarget ev subj pred)
            puts := (textAt ev "object_ref").map (overrideRow ev subj pred) }
      | _, _ => {} := by
  unfold changeOf
  simp only [isOverride, Bool.or_eq_true, decide_eq_true_eq] at he
  rcases he with he | he <;> rw [he] <;> cases nonEmpty (textAt ev "subject_ref") <;>
    cases nonEmpty (textAt ev "predicate") <;> rfl

/-- The change of an assertion. -/
theorem changeOf_asserted {locks : String → Bool} {ev : SemanticEvent} (he : ev.eventType = .SemanticAsserted) :
    changeOf locks ev =
      match nonEmpty (textAt ev "subject_ref"), nonEmpty (textAt ev "predicate_code") with
      | some subj, some pred => if locks subj then {} else { puts := some (assertedRow ev subj pred) }
      | _, _ => {} := by
  unfold changeOf
  rw [he]
  cases nonEmpty (textAt ev "subject_ref") <;> cases nonEmpty (textAt ev "predicate_code") <;> rfl

theorem changeOf_invalidated {locks : String → Bool} {ev : SemanticEvent} (he : ev.eventType = .Invalidated) :
    changeOf locks ev =
      match nonEmpty (textAt ev "subject_ref") with
      | some subj => { deactivates := some (invalidatedTarget ev subj) }
      | none => {} := by
  unfold changeOf
  rw [he]
  cases nonEmpty (textAt ev "subject_ref") <;> rfl

theorem changeOf_contradicted {locks : String → Bool} {ev : SemanticEvent} (he : ev.eventType = .ContradictionRecorded) :
    changeOf locks ev =
      match nonEmpty (textAt ev "subject_ref"), nonEmpty (textAt ev "predicate") with
      | some subj, some pred => { marks := some (contradictedTarget ev subj pred, contradictingRefs ev) }
      | _, _ => {} := by
  unfold changeOf
  rw [he]
  cases nonEmpty (textAt ev "subject_ref") <;> cases nonEmpty (textAt ev "predicate") <;> rfl

theorem changeOf_other {locks : String → Bool} {ev : SemanticEvent} (he : ev.eventType ∉ edgeEventTypes) :
    changeOf locks ev = {} := by
  unfold changeOf
  cases nonEmpty (textAt ev "subject_ref") with
  | none => rfl
  | some subj =>
    dsimp only
    split <;> first | rfl | exact absurd (by rw [‹ev.eventType = _›]; decide) he

theorem changeOf_puts {locks : String → Bool} {ev : SemanticEvent} {row : EdgeRow}
    (h : (changeOf locks ev).puts = some row) : Puts locks ev row := by
  by_cases hmem : ev.eventType ∈ edgeEventTypes
  · simp only [edgeEventTypes, List.mem_cons, List.not_mem_nil, or_false] at hmem
    have override : isOverride ev.eventType = true → Puts locks ev row := by
      intro he
      rw [changeOf_override he] at h
      split at h
      · rename_i hs hp
        split at h
        · cases h
        · rename_i hl
          obtain ⟨obj, ho, rfl⟩ := Option.map_eq_some_iff.1 h
          exact .override he hs hp ho (Bool.eq_false_iff.2 hl)
      · cases h
    rcases hmem with he | he | he | he | he
    · rw [changeOf_asserted he] at h
      split at h
      · rename_i hs hp
        split at h
        · cases h
        · rename_i hl
          cases h
          exact .asserted he hs hp (Bool.eq_false_iff.2 hl)
      · cases h
    · exact override (by rw [he]; rfl)
    · exact override (by rw [he]; rfl)
    · rw [changeOf_invalidated he] at h
      split at h <;> cases h
    · rw [changeOf_contradicted he] at h
      split at h <;> cases h
  · rw [changeOf_other hmem] at h
    cases h

theorem Puts.edgeEvent {locks : String → Bool} {ev : SemanticEvent} {row : EdgeRow} (h : Puts locks ev row) :
    ev.eventType ∈ edgeEventTypes := by
  cases h with
  | asserted he => rw [he]; decide
  | override he =>
    simp only [isOverride, Bool.or_eq_true, decide_eq_true_eq] at he
    rcases he with he | he <;> rw [he] <;> decide

/-! ## The builder makes the change -/

/-- The conflict refs of a row are texts. -/
def EdgeRow.Clean (r : EdgeRow) : Prop := ∃ xs : List String, r.contradictionRefs = .arr (xs.map .str)

def EdgeTable.Clean (t : EdgeTable) : Prop := ∀ r ∈ t, EdgeRow.Clean r

theorem texts_map (xs : List String) : texts (.arr (xs.map .str)) = xs := by
  induction xs with
  | nil => rfl
  | cons x xs ih => exact congrArg (x :: ·) ih

theorem pyIn_texts (x : String) (xs : List String) : pyIn (.str x) (xs.map .str) = decide (x ∈ xs) := by
  induction xs with
  | nil => rfl
  | cons y ys ih =>
    simp only [pyIn, List.any_map, List.map_cons, List.any_cons] at ih ⊢
    rw [show (ys.any (pyEq (.str x) ∘ Json.str)) = decide (x ∈ ys) from ih]
    simp [pyEq, Bool.decide_or, beq_eq_decide]

theorem addRefs_texts (refs : List String) : ∀ merged : List String,
    addRefs (merged.map .str) (refs.map .str) = .ok ((addTexts merged refs).map .str) := by
  induction refs with
  | nil => exact fun _ => rfl
  | cons x xs ih =>
    intro merged
    simp only [List.map_cons, addRefs, isHashable, if_true, pyIn_texts, decide_eq_true_eq]
    by_cases hm : x ∈ merged
    · rw [if_pos hm, ih, addTexts, addTexts, List.foldl_cons, if_pos hm]
    · rw [if_neg hm, show merged.map Json.str ++ [Json.str x] = (merged ++ [x]).map .str by simp, ih, addTexts, addTexts,
        List.foldl_cons, if_neg hm]

theorem pyList_texts (xs : List String) : pyList (.arr (xs.map .str)) = .ok (xs.map .str) := by
  cases xs <;> rfl

theorem addTexts_append (merged xs ys : List String) : addTexts merged (xs ++ ys) = addTexts (addTexts merged xs) ys := by
  simp [addTexts, List.foldl_append]

theorem mergedConflicts_eq {r : EdgeRow} (hr : r.Clean) {ev : SemanticEvent} (h : Accepted ev)
    (he : ev.eventType ∈ edgeEventTypes) :
    mergedConflicts r ev.payload =
      .ok ((r.mergedTexts (contradictingRefs ev)).map .str) := by
  obtain ⟨xs, hx⟩ := hr
  have hrefs : pyList (ev.payload.get "refs") = .ok ((texts (ev.payload.get "refs")).map .str) := by
    rcases edge_list h he (k := "refs") (by decide) with hn | ⟨ys, hy⟩
    · rw [hn]; rfl
    · rw [hy, texts_map, pyList_texts]
  have hfirst := addRefs_texts xs []
  obtain ⟨o, ho⟩ := edge_text h he (k := "contradicting_ref") (by decide)
  unfold mergedConflicts EdgeRow.mergedTexts contradictingRefs
  rw [hx, hrefs, pyList_texts, texts_map]
  simp only [bind, Except.bind, List.map_nil] at hfirst ⊢
  rw [hfirst]
  simp only [addRefs_texts, textAt, ho, addTexts_append]
  cases o with
  | none => simp [Json.ofStr?, Json.isNone, Json.str?, pure, Except.pure, addTexts]
  | some s =>
    have hone := addRefs_texts [s]
    simp only [List.map_cons, List.map_nil] at hone
    simp [Json.ofStr?, Json.isNone, Json.str?, pure, Except.pure, hone]

theorem edge_get {ev : SemanticEvent} (h : Accepted ev) (he : ev.eventType ∈ edgeEventTypes) {k : String}
    (hk : edgeTexts.contains k = true) : ev.payload.get k = Json.ofStr? (textAt ev k) := by
  obtain ⟨o, ho⟩ := edge_text h he hk
  rw [textAt, ho]
  cases o <;> rfl

@[simp] theorem bindText_some (s : String) : bindText (Json.ofStr? (some s)) = .ok s := rfl

@[simp] theorem bindText?_ofStr (o : Option String) : bindText? (Json.ofStr? o) = .ok o := by cases o <;> rfl

/-- A text is truthy when it is there and not empty. -/
theorem truthy_ofStr (o : Option String) : (Json.ofStr? o).truthy = (nonEmpty o).isSome := by
  cases o with
  | none => rfl
  | some s => by_cases hs : s = "" <;> simp [Json.ofStr?, Json.truthy, nonEmpty, Option.filter, hs]

@[simp] theorem nonEmpty_none : nonEmpty none = none := rfl

theorem nonEmpty_eq {o : Option String} {s : String} (h : nonEmpty o = some s) : o = some s ∧ s ≠ "" := by
  unfold nonEmpty at h
  cases o with
  | none => cases h
  | some x => simpa [Option.filter_eq_some_iff] using h

theorem map_id_of {f : EdgeRow → EdgeRow} (h : ∀ r, f r = r) (t : EdgeTable) : t.map f = t := by
  rw [funext h]; exact List.map_id t

theorem on_keep (seq : Nat) (t : EdgeTable) : Change.on {} seq t = t := map_id_of (fun _ => rfl) t

theorem on_puts (row : EdgeRow) (seq : Nat) (t : EdgeTable) : Change.on { puts := some row } seq t = t.upsert row := by
  have htouch : t.map (Change.touch { puts := some row } seq) = t := map_id_of (fun _ => rfl) t
  simp only [Change.on, htouch]

theorem map_deactivates (t : EdgeTable) (target : Target) (puts : Option EdgeRow) (seq : Nat) :
    t.map (Change.touch { deactivates := some target, puts := puts } seq) = t.deactivate target seq := by
  refine List.map_congr_left fun r _ => ?_
  simp [Change.touch]

theorem on_deactivates (target : Target) (puts : Option EdgeRow) (seq : Nat) (t : EdgeTable) :
    Change.on { deactivates := some target, puts := puts } seq t =
      match puts with
      | none => t.deactivate target seq
      | some row => (t.deactivate target seq).upsert row := by
  simp only [Change.on, map_deactivates]

theorem markConflicting_eq {ev : SemanticEvent} {t : EdgeTable} (h : Accepted ev) (he : ev.eventType ∈ edgeEventTypes)
    (ht : t.Clean) (c : Target) (seq : Nat) :
    t.markConflicting c ev.payload seq = .ok (Change.on { marks := some (c, contradictingRefs ev) } seq t) := by
  change t.mapM (markRow c ev.payload seq) = .ok (t.map _)
  induction t with
  | nil => rfl
  | cons r t ih =>
    have hrow : markRow c ev.payload seq r =
        .ok (Change.touch { marks := some (c, contradictingRefs ev) } seq r) := by
      unfold markRow Change.touch
      simp only [mergedConflicts_eq (ht r (by simp)) h he, Option.any_none, Bool.false_eq_true, if_false]
      split <;> rfl
    rw [List.mapM_cons, hrow, ih fun r' hr' => ht r' (List.mem_cons_of_mem _ hr')]
    rfl

theorem applyAsserted_eq {d : Driver} {ev : SemanticEvent} {t : EdgeTable} (h : Accepted ev)
    (he : ev.eventType = .SemanticAsserted) :
    applyAsserted d ev t = .ok ((changeOf d.state.locks ev).on (ev.seq.getD 0) t) := by
  have hget : ∀ k, edgeTexts.contains k = true → ev.payload.get k = Json.ofStr? (textAt ev k) :=
    fun k => edge_get h (by rw [he]; decide)
  rw [changeOf_asserted he]
  unfold applyAsserted
  simp only [hget "predicate_code" (by decide), hget "subject_ref" (by decide), hget "object_ref" (by decide),
    truthy_ofStr]
  cases hs : nonEmpty (textAt ev "subject_ref") with
  | none => simp [on_keep, pure, Except.pure]
  | some subj =>
    rw [(nonEmpty_eq hs).1]
    cases hp : nonEmpty (textAt ev "predicate_code") with
    | none => simp [on_keep, pure, Except.pure]
    | some pred =>
      rw [(nonEmpty_eq hp).1]
      simp only [Option.isSome_some, Bool.not_true, Bool.or_self, Bool.false_eq_true, if_false, bindText_some,
        bind, Except.bind]
      cases d.state.locks subj with
      | true => simp [on_keep, pure, Except.pure]
      | false =>
        simp only [Bool.false_eq_true, if_false, bindText?_ofStr, on_puts]
        rfl

theorem applyOverride_eq {d : Driver} {ev : SemanticEvent} {t : EdgeTable} (h : Accepted ev)
    (he : ev.eventType = .OverrideApplied ∨ ev.eventType = .CorrectionApplied) :
    applyOverride d ev t = .ok ((changeOf d.state.locks ev).on (ev.seq.getD 0) t) := by
  have hget : ∀ k, edgeTexts.contains k = true → ev.payload.get k = Json.ofStr? (textAt ev k) :=
    fun k => edge_get h (by rcases he with he | he <;> rw [he] <;> decide)
  have hover : isOverride ev.eventType = true := by rcases he with he | he <;> rw [he] <;> rfl
  rw [changeOf_override hover]
  unfold applyOverride
  simp only [hget "predicate" (by decide), hget "subject_ref" (by decide), hget "object_ref" (by decide),
    hget "prior_ref" (by decide), hget "relationship_type" (by decide), truthy_ofStr]
  cases hs : nonEmpty (textAt ev "subject_ref") with
  | none => simp [on_keep, pure, Except.pure]
  | some subj =>
    rw [(nonEmpty_eq hs).1]
    cases hp : nonEmpty (textAt ev "predicate") with
    | none => simp [on_keep, pure, Except.pure]
    | some pred =>
      rw [(nonEmpty_eq hp).1]
      simp only [Option.isSome_some, Bool.not_true, Bool.or_self, Bool.false_eq_true, if_false, bindText_some,
        bind, Except.bind]
      cases d.state.locks subj with
      | true => simp [on_keep, pure, Except.pure]
      | false =>
        simp only [Bool.false_eq_true, if_false, on_deactivates, overrideTarget]
        -- only a correction reads its prior ref
        rcases he with he | he <;>
          cases textAt ev "object_ref" <;>
          simp only [he, reduceCtorEq, if_false, if_true, pure, Except.pure, bindText?_ofStr, Option.map_none,
            Option.map_some, nonEmpty_none, overrideRow]

theorem applyInvalidated_eq {locks : String → Bool} {ev : SemanticEvent} {t : EdgeTable} (h : Accepted ev)
    (he : ev.eventType = .Invalidated) :
    applyInvalidated ev t = .ok ((changeOf locks ev).on (ev.seq.getD 0) t) := by
  have hget : ∀ k, edgeTexts.contains k = true → ev.payload.get k = Json.ofStr? (textAt ev k) :=
    fun k => edge_get h (by rw [he]; decide)
  rw [changeOf_invalidated he]
  unfold applyInvalidated
  simp only [hget "predicate" (by decide), hget "subject_ref" (by decide), hget "scope" (by decide),
    hget "relationship_type" (by decide), truthy_ofStr]
  cases hs : nonEmpty (textAt ev "subject_ref") with
  | none => simp [on_keep, pure, Except.pure]
  | some subj =>
    rw [(nonEmpty_eq hs).1]
    simp only [Option.isSome_some, Bool.not_true, Bool.false_eq_true, if_false, bindText_some, bind, Except.bind,
      bindText?_ofStr, on_deactivates]
    rfl

theorem applyContradiction_eq {locks : String → Bool} {ev : SemanticEvent} {t : EdgeTable} (h : Accepted ev)
    (he : ev.eventType = .ContradictionRecorded) (ht : t.Clean) :
    applyContradiction ev t = .ok ((changeOf locks ev).on (ev.seq.getD 0) t) := by
  have hmem : ev.eventType ∈ edgeEventTypes := by rw [he]; decide
  have hget : ∀ k, edgeTexts.contains k = true → ev.payload.get k = Json.ofStr? (textAt ev k) := fun k => edge_get h hmem
  rw [changeOf_contradicted he]
  unfold applyContradiction
  simp only [hget "predicate" (by decide), hget "subject_ref" (by decide), hget "relationship_type" (by decide),
    truthy_ofStr]
  cases hs : nonEmpty (textAt ev "subject_ref") with
  | none => simp [on_keep, pure, Except.pure]
  | some subj =>
    rw [(nonEmpty_eq hs).1]
    cases hp : nonEmpty (textAt ev "predicate") with
    | none => simp [on_keep, pure, Except.pure]
    | some pred =>
      rw [(nonEmpty_eq hp).1]
      simp only [Option.isSome_some, Bool.not_true, Bool.or_self, Bool.false_eq_true, if_false, bindText_some,
        bind, Except.bind, bindText?_ofStr, markConflicting_eq h hmem ht]
      rfl

/-- **On a stored event `apply` does not raise: it makes the event's change.** -/
theorem applyEdge_eq {d : Driver} {ev : SemanticEvent} {t : EdgeTable} (h : Accepted ev) (ht : t.Clean) :
    applyEdge d ev t = .ok ((changeOf d.state.locks ev).on (ev.seq.getD 0) t) := by
  cases he : ev.eventType with
  | SemanticAsserted => simpa only [applyEdge, he] using applyAsserted_eq h he
  | OverrideApplied => simpa only [applyEdge, he] using applyOverride_eq h (.inl he)
  | CorrectionApplied => simpa only [applyEdge, he] using applyOverride_eq h (.inr he)
  | Invalidated => simpa only [applyEdge, he] using applyInvalidated_eq h he
  | ContradictionRecorded => simpa only [applyEdge, he] using applyContradiction_eq h he ht
  | _ =>
    rw [changeOf_other (by rw [he]; simp [edgeEventTypes]), on_keep, applyEdge, he]

end Umd.Projections
