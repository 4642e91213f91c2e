import Umd.Reconciliation.Reconciler
import Umd.Storage.Reducer
/-!
# The committed resolution

`_committed_resolution` and `ResolutionBatch.from_committed`: the identities of
`current_state` that are in the scope of a source, in the order in which the database
returns their rows. The assertions made of them depend on that order if and only if two
of the identities claim one surface (`assertions_order_iff`).
-/

namespace Umd.Reconciliation

open Umd.Lib Umd.Reducer Umd.Sandbox Umd.Semantic Umd.Repositories

/-- What a stage knows of its source. -/
structure Source where
  id : String
  workId : Option String := none
  continuityId : Option String := none

/-- `text in (x or [])`. -/
def pyContains (text : String) (j : Json) : Except PyError Bool :=
  if j.truthy then
    match j with
    | .arr xs => .ok (pyIn (.str text) xs)
    | .str s => .ok (decide (text.toList <:+: s.toList))
    | .obj d => .ok ((Dict.keys d).contains text)
    | _ => .error .typeError
  else .ok false

/-- One of the memberships names an id that is given. -/
def claims (memberships : Dict) (key : String) (id : Option String) : Except PyError Bool :=
  match id.filter (· ≠ "") with
  | none => .ok false
  | some id => pyContains id (memberships.get key)

/-- An identity is in the scope of a source: by its work, its continuity or itself. -/
def inScope (src : Source) (metadata : Dict) : Except PyError Bool :=
  match pyOr (metadata.get "memberships") (.obj []) with
  | .obj memberships => do
    if ← claims memberships "work_ids" src.workId then return true
    else if ← claims memberships "continuity_ids" src.continuityId then return true
    else pyContains src.id (Dict.get memberships "source_ids")
  | _ => .error .attributeError

/-- The body of the loop of `_committed_resolution`. -/
def committedRow (src : Source) (r : ScalarRow) : Except PyError (Option (String × Dict)) :=
  if r.state.isStr "INVALIDATED" then .ok none
  else
    match r.objectRef.bind parseObject with
    | none => .ok none
    | some metadata => (inScope src metadata).map fun found => if found then some (r.entityRef, metadata) else none

/-- A field of `list[str]`, read with `list(x or [])`. -/
def textList (j : Json) : Except PyError (List String) := do
  let xs ← pyList j
  xs.mapM asStr

/-- The confidence of an identity. -/
def committedConfidence (metadata : Dict) : Except PyError PyReal :=
  if (metadata.get "confidence").isNone then .ok .zero else toReal (metadata.get "confidence")

/-- A field of `dict[str, list[Any]]`, read with `dict(x or {})`. -/
def checkMemberships (j : Json) : Except PyError Unit := do
  let d ← pyDict j
  if d.all fun p => match p.2 with
    | .arr _ => true
    | _ => false
  then return () else .error .valueError

/-- The mappings of an identity's aliases. -/
def mappingsOf (ref : String) (confidence : Number) (aliases : List String) : List Mapping :=
  aliases.zipIdx.map fun p => ⟨"canonical:" ++ ref ++ ":alias:" ++ toString p.2, ref, p.1, confidence⟩

/-- An identity with the mappings of its aliases. -/
abbrev Part := Canonical × List Mapping

/-- The body of the loop of `from_committed`; an identity without a label is left out. -/
def committedPart (p : String × Dict) : Except PyError (Option Part) :=
  let metadata := p.2
  let label := pyStr (pyOr (metadata.get "display_label") (.str ""))
  if label = "" then .ok none
  else do
    let confidence ← committedConfidence metadata
    let _ ← textList (metadata.get "support_refs")
    let aliases ← textList (metadata.get "aliases")
    checkMemberships (metadata.get "memberships")
    return some ({
      ref := p.1
      label := label
      state := pyStr (pyOr (metadata.get "state") (.str "PROBABLE"))
      classification := pyStr (pyOr (metadata.get "classification") (.str "probable")) }, mappingsOf p.1 confidence.number aliases)

def ofParts (parts : List Part) : Resolution where
  canonicalEntities := parts.map (·.1)
  aliasMappings := parts.flatMap (·.2)

/-- `from_committed`. -/
def fromCommitted (committed : List (String × Dict)) : Except PyError Resolution :=
  (committed.mapM committedPart).map fun parts => ofParts (parts.filterMap id)

/-- `_committed_resolution`, over the rows that the database returns. -/
def committedResolution (src : Source) (rows : List ScalarRow) : Except PyError Resolution := do
  let selected ← rows.mapM (committedRow src)
  fromCommitted (selected.filterMap id)

/-- `_reconciliation_input`. -/
def reconciliationInput (src : Source) (analysis : Buckets) (resolution : Resolution) : ReconciliationInput where
  sourceId := src.id
  analysis := analysis
  resolution := some resolution
  generatedBy := [("stage", .str "SEMANTIC_RECONCILIATION"), ("reconciler", .str "umd-semantic-reconciler@1"),
    ("config_digest", .str "umd-semantic-reconciliation@1"), ("path", .str "deterministic")]

/-- What `SEMANTIC_RECONCILIATION` emits. -/
def emitted (f : TextFunctions) (src : Source) (analysis : Buckets) (rows : List ScalarRow) : Except PyError (List Assertion) :=
  (committedResolution src rows).map fun resolution => (reconciliationInput src analysis resolution).reconcile f

/-- The content of `current_state`. -/
structure CurrentState where
  states : List ScalarRow
  keys : (states.map fun r => (r.entityRef, r.predicate)).Nodup

/-- The identity rows of a state. -/
def CurrentState.identities (s : CurrentState) : List ScalarRow := s.states.filter fun r => r.predicate = canonicalIdentity

/-- What an assertion is told by. -/
def Assertion.said (a : Assertion) : String × String × String × ConfidenceState × Number :=
  (a.predicateCode, a.subjectRef, a.objectRef, a.state, a.confidence)

/-- The set of assertions that a run emits, none where it raises. -/
def saidBy (out : Except PyError (List Assertion)) : Set (String × String × String × ConfidenceState × Number) :=
  {x | ∃ as, out = .ok as ∧ x ∈ as.map Assertion.said}

/-- What one row adds to the resolution. -/
def identityOf (src : Source) : ScalarRow → Except PyError (Option Part) := findThen (committedRow src) committedPart

/-- An identity claims a surface: by its label or, where no label is it, by an alias. -/
def Binds (parts : List Part) (surface ref : String) : Prop :=
  (∃ p ∈ parts, p.1.label = surface ∧ p.1.ref = ref) ∨
    (∀ p ∈ parts, p.1.label ≠ surface) ∧ ∃ p ∈ parts, ∃ m ∈ p.2, m.aliasText = surface ∧ m.canonicalRef = ref

/-- The ref of a surface that an identity claims. -/
def entityRef (f : TextFunctions) (src : Source) (surface ref : String) : String :=
  if ref = "" then deterministicRef f src.id "entity" surface else ref

/-- No two identities claim one surface. -/
def OneClaimant (f : TextFunctions) (src : Source) (parts : List Part) : Prop :=
  ∀ surface ref ref', surface ≠ "" → Binds parts surface ref → Binds parts surface ref' →
    entityRef f src surface ref = entityRef f src surface ref'

/-! ## The first of each key -/

theorem mem_keepNew {seen : List (String × String × String × Option String)} {es : List Emit} {e : Emit} (h : e ∈ keepNew seen es) :
    e ∈ es ∧ e.key ∉ seen := by
  induction es generalizing seen with
  | nil => cases h
  | cons x es ih =>
    unfold keepNew at h
    split at h
    · obtain ⟨hmem, hkey⟩ := ih h
      exact ⟨List.mem_cons_of_mem _ hmem, hkey⟩
    · rename_i hx
      rcases List.mem_cons.1 h with rfl | h
      · exact ⟨List.mem_cons_self .., hx⟩
      · obtain ⟨hmem, hkey⟩ := ih h
        exact ⟨List.mem_cons_of_mem _ hmem, fun hin => hkey (List.mem_cons_of_mem _ hin)⟩

/-- Every key that is not seen yet is kept once. -/
theorem keepNew_key {seen : List (String × String × String × Option String)} {es : List Emit} {e : Emit} (he : e ∈ es) (hkey : e.key ∉ seen) :
    ∃ e' ∈ keepNew seen es, e'.key = e.key := by
  induction es generalizing seen with
  | nil => cases he
  | cons x es ih =>
    unfold keepNew
    by_cases hx : x.key ∈ seen
    · rw [if_pos hx]
      rcases List.mem_cons.1 he with rfl | he
      · exact absurd hx hkey
      · exact ih he hkey
    · rw [if_neg hx]
      rcases List.mem_cons.1 he with rfl | he
      · exact ⟨e, List.mem_cons_self .., rfl⟩
      · by_cases hsame : e.key = x.key
        · exact ⟨x, List.mem_cons_self .., hsame.symm⟩
        · obtain ⟨e', he', hk⟩ := @ih (x.key :: seen) he (by simp [hsame, hkey])
          exact ⟨e', List.mem_cons_of_mem _ he', hk⟩

theorem keepNew_congr {seen seen' : List (String × String × String × Option String)} (h : ∀ k, k ∈ seen ↔ k ∈ seen') (es : List Emit) :
    keepNew seen es = keepNew seen' es := by
  induction es generalizing seen seen' with
  | nil => rfl
  | cons e es ih =>
    unfold keepNew
    rw [ih h, @ih (e.key :: seen) (e.key :: seen') fun k => by rw [List.mem_cons, List.mem_cons, h]]
    simp only [h]

theorem keepNew_cons (seen : List (String × String × String × Option String)) (e : Emit) (es : List Emit) :
    keepNew seen (e :: es) = if e.key ∈ seen then keepNew seen es else e :: keepNew (e.key :: seen) es := rfl

theorem keepNew_append (seen : List (String × String × String × Option String)) (es es' : List Emit) :
    keepNew seen (es ++ es') = keepNew seen es ++ keepNew (es.map Emit.key ++ seen) es' := by
  induction es generalizing seen with
  | nil => rfl
  | cons e es ih =>
    rw [List.cons_append, keepNew_cons, keepNew_cons]
    by_cases he : e.key ∈ seen
    · rw [if_pos he, if_pos he, ih]
      congr 1
      refine keepNew_congr (fun k => ?_) es'
      simp only [List.map_cons, List.cons_append, List.mem_cons, List.mem_append]
      exact ⟨.inr, fun h => h.elim (fun hk => .inr (hk ▸ he)) id⟩
    · rw [if_neg he, if_neg he, ih, List.cons_append]
      congr 2
      refine keepNew_congr (fun k => ?_) es'
      simp only [List.map_cons, List.cons_append, List.mem_cons, List.mem_append]
      tauto

/-- Where all of one key say the same, what is kept says what is pending, in whatever order. -/
theorem said_keepNew {α : Type} {g : Emit → α} {es : List Emit} (hg : ∀ e ∈ es, ∀ e' ∈ es, e.key = e'.key → g e = g e') (x : α) :
    x ∈ (keepNew [] es).map g ↔ x ∈ es.map g := by
  simp only [List.mem_map]
  constructor
  · rintro ⟨e, he, rfl⟩
    exact ⟨e, (mem_keepNew he).1, rfl⟩
  · rintro ⟨e, he, rfl⟩
    obtain ⟨e', he', hk⟩ := keepNew_key he (List.not_mem_nil (a := e.key))
    exact ⟨e', he', hg e' (mem_keepNew he').1 e he hk⟩

/-! ## What the rows add -/

theorem committedResolution_ok {src : Source} {rows : List ScalarRow} {res : Resolution} :
    committedResolution src rows = .ok res ↔ ∃ parts, rows.mapM (identityOf src) = .ok parts ∧ ofParts (parts.filterMap id) = res := by
  unfold committedResolution fromCommitted
  constructor
  · intro h
    obtain ⟨selected, hsel, h⟩ := bind_ok h
    obtain ⟨parts, hparts, rfl⟩ := map_eq_ok.1 h
    obtain ⟨found, hfound, heq⟩ := mapM_filterMap.1 ⟨selected, parts, hsel, hparts, rfl⟩
    exact ⟨found, hfound, congrArg ofParts heq⟩
  · rintro ⟨found, hfound, rfl⟩
    obtain ⟨selected, parts, hsel, hparts, heq⟩ := mapM_filterMap.2 ⟨found, hfound, rfl⟩
    exact of_bind hsel (map_eq_ok.2 ⟨parts, hparts, congrArg ofParts heq⟩)

/-- The parts of rows whose refs are distinct. -/
structure Committed (parts : List Part) : Prop where
  refs : (parts.map (·.1.ref)).Nodup
  labels : ∀ p ∈ parts, p.1.label ≠ ""
  mappings : ∀ p ∈ parts, ∃ confidence aliases, p.2 = mappingsOf p.1.ref confidence aliases

theorem identityOf_some {src : Source} {r : ScalarRow} {p : Part} (h : identityOf src r = .ok (some p)) :
    p.1.ref = r.entityRef ∧ p.1.label ≠ "" ∧ ∃ confidence aliases, p.2 = mappingsOf p.1.ref confidence aliases := by
  obtain ⟨found, hrow, h⟩ := bind_ok h
  cases found with
  | none => cases h
  | some q =>
    have hq : q.1 = r.entityRef := by
      unfold committedRow at hrow
      split at hrow
      · cases hrow
      · split at hrow
        · cases hrow
        · obtain ⟨b, -, hb⟩ := map_eq_ok.1 hrow
          split at hb
          · cases hb
            rfl
          · cases hb
    simp only [committedPart] at h
    split at h
    · cases h
    · rename_i hlabel
      obtain ⟨confidence, -, h⟩ := bind_ok h
      obtain ⟨_, -, h⟩ := bind_ok h
      obtain ⟨aliases, -, h⟩ := bind_ok h
      obtain ⟨_, -, h⟩ := bind_ok h
      cases h
      exact ⟨hq, hlabel, _, _, rfl⟩

theorem committed_of_rows {src : Source} {rows : List ScalarRow} {parts : List (Option Part)} (hn : (rows.map (·.entityRef)).Nodup)
    (h : rows.mapM (identityOf src) = .ok parts) : Committed (parts.filterMap id) := by
  have hpart : ∀ p ∈ parts.filterMap id, ∃ r ∈ rows, identityOf src r = .ok (some p) := by
    intro p hp
    obtain ⟨o, ho, rfl⟩ := List.mem_filterMap.1 hp
    exact mapM_mem h _ ho
  refine ⟨?_, fun p hp => ?_, fun p hp => ?_⟩
  · have hsub : ((parts.filterMap id).map (·.1.ref)).Sublist (rows.map (·.entityRef)) := by
      clear hn hpart
      induction rows generalizing parts with
      | nil => cases h; exact .slnil
      | cons r rows ih =>
        obtain ⟨o, rest, hr, hrest, rfl⟩ := mapM_cons_ok.1 h
        cases o with
        | none => exact (ih hrest).cons _
        | some p =>
          rw [show (some p :: rest).filterMap id = p :: rest.filterMap id from rfl, List.map_cons, List.map_cons, (identityOf_some hr).1]
          exact (ih hrest).cons_cons _
    exact hn.sublist hsub
  · obtain ⟨r, -, hr⟩ := hpart p hp
    exact (identityOf_some hr).2.1
  · obtain ⟨r, -, hr⟩ := hpart p hp
    exact (identityOf_some hr).2.2

theorem identities_refs (s : CurrentState) : (s.identities.map (·.entityRef)).Nodup := by
  have hn : (s.identities.map fun r => (r.entityRef, r.predicate)).Nodup := s.keys.sublist (List.filter_sublist.map _)
  rw [List.nodup_map_iff_inj_on (List.Nodup.of_map _ hn)]
  intro a ha b hb hab
  refine eq_of_key hn ha hb (Prod.ext hab ?_)
  rw [of_decide_eq_true (List.mem_filter.1 ha).2, of_decide_eq_true (List.mem_filter.1 hb).2]

/-! ## The ref of a surface -/

variable {f : TextFunctions} {src : Source} {parts parts' : List Part}

theorem binds_perm (h : parts.Perm parts') {surface ref : String} : Binds parts surface ref ↔ Binds parts' surface ref := by
  simp only [Binds, h.mem_iff]

theorem lookup_mem {l : List (String × String)} {s v : String} (h : l.lookup s = some v) : (s, v) ∈ l := by
  obtain ⟨l₁, l₂, rfl, -⟩ := List.lookup_eq_some_iff.1 h
  simp

/-- The ref a surface is bound to is one that an identity claims it for, and a surface that is not bound is claimed by none. -/
theorem lookup_binds (hc : Committed parts) {surface : String} (hs : surface ≠ "") :
    match (ofParts parts).surfaces.lookup surface with
    | some ref => Binds parts surface ref
    | none => ∀ ref, ¬ Binds parts surface ref := by
  have hlabel : ∀ p ∈ parts, (p.1.label, p.1.ref) ∈ ((ofParts parts).canonicalEntities.filter (·.label ≠ "")).map fun ce => (ce.label, ce.ref) :=
    fun p hp => List.mem_map.2 ⟨p.1, List.mem_filter.2 ⟨List.mem_map_of_mem hp, decide_eq_true (hc.labels p hp)⟩, rfl⟩
  have halias : ∀ p ∈ parts, ∀ m ∈ p.2, m.aliasText = surface →
      (surface, m.canonicalRef) ∈ ((ofParts parts).aliasMappings.filter (·.aliasText ≠ "")).map fun am => (am.aliasText, am.canonicalRef) := by
    intro p hp m hm htext
    refine List.mem_map.2 ⟨m, List.mem_filter.2 ⟨List.mem_flatMap.2 ⟨p, hp, hm⟩, ?_⟩, by rw [htext]⟩
    exact decide_eq_true (htext ▸ hs)
  unfold Resolution.surfaces
  rw [List.lookup_append]
  split
  · rename_i ref hsome
    cases hl : (((ofParts parts).canonicalEntities.filter (·.label ≠ "")).map fun ce => (ce.label, ce.ref)).lookup surface with
    | some ref' =>
      rw [hl] at hsome
      obtain rfl : ref' = ref := Option.some.inj hsome
      obtain ⟨ce, hce, heq⟩ := List.mem_map.1 (lookup_mem hl)
      obtain ⟨p, hp, rfl⟩ := List.mem_map.1 (List.mem_filter.1 hce).1
      exact .inl ⟨p, hp, congrArg Prod.fst heq, congrArg Prod.snd heq⟩
    | none =>
      rw [hl] at hsome
      refine .inr ⟨fun p hp heq => ?_, ?_⟩
      · have hne := List.lookup_eq_none_iff.1 hl _ (hlabel p hp)
        exact absurd heq.symm (by simpa using hne)
      · obtain ⟨m, hm, heq⟩ := List.mem_map.1 (lookup_mem hsome)
        obtain ⟨p, hp, hmp⟩ := List.mem_flatMap.1 (List.mem_filter.1 hm).1
        exact ⟨p, hp, m, hmp, congrArg Prod.fst heq, congrArg Prod.snd heq⟩
  · rename_i hnone
    rw [Option.or_eq_none_iff] at hnone
    rintro ref (⟨p, hp, heq, -⟩ | ⟨-, p, hp, m, hm, heq, -⟩)
    · have hne := List.lookup_eq_none_iff.1 hnone.1 _ (hlabel p hp)
      exact absurd heq.symm (by simpa using hne)
    · have hne := List.lookup_eq_none_iff.1 hnone.2 _ (halias p hp m hm heq)
      simp at hne

/-- The input of a source with the identities of `parts`. -/
def inputOf (src : Source) (analysis : Buckets) (parts : List Part) : ReconciliationInput := reconciliationInput src analysis (ofParts parts)

theorem resolve_eq {analysis : Buckets} {surface : String} (hs : surface ≠ "") :
    (inputOf src analysis parts).resolve f (some surface) =
      some (entityRef f src surface (((ofParts parts).surfaces.lookup surface).getD "")) := by
  have hsome : (some surface).filter (fun s => decide (s ≠ "")) = some surface := Option.filter_eq_some_iff.2 ⟨rfl, decide_eq_true hs⟩
  unfold ReconciliationInput.resolve
  rw [hsome, Option.map_some]
  refine congrArg some ?_
  show (((ofParts parts).surfaces.lookup surface).filter (fun s => decide (s ≠ ""))).getD (deterministicRef f src.id "entity" surface) = _
  unfold entityRef
  cases (ofParts parts).surfaces.lookup surface with
  | none => rfl
  | some ref =>
    by_cases href : ref = ""
    · simp [Option.filter, href]
    · simp [Option.filter, href]

/-- Where no two identities claim one surface, it is bound in one way. -/
theorem resolve_perm (hc : Committed parts) (hc' : Committed parts') (hp : parts.Perm parts') (hone : OneClaimant f src parts)
    (analysis : Buckets) : (inputOf src analysis parts).resolve f = (inputOf src analysis parts').resolve f := by
  funext surface
  cases surface with
  | none => rfl
  | some surface =>
    by_cases hs : surface = ""
    · subst hs
      rfl
    · rw [resolve_eq hs, resolve_eq hs]
      have h := lookup_binds hc hs
      have h' := lookup_binds hc' hs
      refine congrArg some ?_
      split at h
      · rename_i ref href
        split at h'
        · rename_i ref' href'
          rw [href, href']
          exact hone surface ref ref' hs h ((binds_perm hp).2 h')
        · exact absurd ((binds_perm hp).1 h) (h' ref)
      · rename_i href
        split at h'
        · rename_i ref' href'
          exact absurd ((binds_perm hp).2 h') (h ref')
        · rename_i href'
          rw [href, href']

/-! ## What is emitted -/

/-- Observations bound in one way are emitted alike. -/
theorem emitObservations_congr {input input' : ReconciliationInput} (hsource : input.sourceId = input'.sourceId)
    (hanalysis : input.analysis = input'.analysis) (hres : input.resolve f = input'.resolve f) :
    input.emitObservations f = input'.emitObservations f := by
  have hfallback : input.fallback f = input'.fallback f := by
    funext s
    simp only [ReconciliationInput.fallback, hsource]
  have habout : input.aboutEntity f = input'.aboutEntity f := by
    funext c p s o
    simp only [ReconciliationInput.aboutEntity, hres]
  have halias : input.emitAlias f = input'.emitAlias f := by
    funext al
    simp only [ReconciliationInput.emitAlias, hres, hfallback]
  have hrel : input.emitRelationship f = input'.emitRelationship f := by
    funext rel
    simp only [ReconciliationInput.emitRelationship, hres]
  have hutt : input.emitUtterance f = input'.emitUtterance f := by
    funext obs
    simp only [ReconciliationInput.emitUtterance, habout, hsource]
  have hmention : input.emitMention f = input'.emitMention f := by
    funext em
    simp only [ReconciliationInput.emitMention, habout]
  have hpresence : input.emitPresence f = input'.emitPresence f := by
    funext pr
    simp only [ReconciliationInput.emitPresence, habout]
  have htrait : input.emitTrait f = input'.emitTrait f := by
    funext tr
    simp only [ReconciliationInput.emitTrait, habout]
  have hemotion : input.emitEmotion f = input'.emitEmotion f := by
    funext emo
    simp only [ReconciliationInput.emitEmotion, habout]
  have hstate : input.emitState f = input'.emitState f := by
    funext st
    simp only [ReconciliationInput.emitState, habout]
  simp only [ReconciliationInput.emitObservations, hanalysis, halias, hmention, hpresence, hutt, htrait, hrel, hemotion, hstate]

theorem stateFor_perm (hp : parts.Perm parts') (analysis : Buckets) (e : Emit) :
    (inputOf src analysis parts).stateFor f e = (inputOf src analysis parts').stateFor f e := by
  have hceil : ((inputOf src analysis parts).ceilingRefs f).contains e.subjectRef =
      ((inputOf src analysis parts').ceilingRefs f).contains e.subjectRef := by
    refine List.Perm.contains_eq ?_
    exact List.Perm.append_right _ (((hp.map (·.1)).filter _).map _)
  unfold ReconciliationInput.stateFor
  rw [hceil]
  rfl

theorem emitResolution_perm (hp : parts.Perm parts') (analysis : Buckets) :
    (inputOf src analysis parts).emitResolution.Perm (inputOf src analysis parts').emitResolution :=
  (hp.flatMap_right _).flatMap_right _

theorem mem_emitResolution {analysis : Buckets} {e : Emit} (he : e ∈ (inputOf src analysis parts).emitResolution) :
    ∃ p ∈ parts, ∃ m ∈ p.2, e ∈ ReconciliationInput.emitMapping m := by
  obtain ⟨m, hm, he⟩ := List.mem_flatMap.1 he
  obtain ⟨p, hp, hm⟩ := List.mem_flatMap.1 hm
  exact ⟨p, hp, m, hm, he⟩

/-- The confidence with which a mapping is emitted. -/
def Mapping.emittedConfidence (am : Mapping) : Number := if (Json.num am.confidence).truthy then am.confidence else .dec 0 1

theorem mem_emitMapping {am : Mapping} {e : Emit} (he : e ∈ ReconciliationInput.emitMapping am) :
    e.confidence = am.emittedConfidence ∧ e.obsState = .probable ∧
      (e.predicate = "ALIAS_OF" ∧ e.objectRef = am.canonicalRef ∨ e.predicate = "KNOWN_AS" ∧ e.subjectRef = am.canonicalRef) := by
  rcases List.mem_cons.1 he with rfl | he
  · exact ⟨rfl, rfl, .inl ⟨rfl, rfl⟩⟩
  · split at he
    · obtain rfl := List.mem_singleton.1 he
      exact ⟨rfl, rfl, .inr ⟨rfl, rfl⟩⟩
    · cases he

theorem mem_mappingsOf {ref : String} {confidence : Number} {aliases : List String} {m : Mapping} (h : m ∈ mappingsOf ref confidence aliases) :
    m.canonicalRef = ref ∧ m.confidence = confidence := by
  obtain ⟨p, -, rfl⟩ := List.mem_map.1 h
  exact ⟨rfl, rfl⟩

/-- The mappings that say the same are of one identity, and say it alike. -/
theorem mappings_agree (hc : Committed parts) {analysis : Buckets} {e e' : Emit} (he : e ∈ (inputOf src analysis parts).emitResolution)
    (he' : e' ∈ (inputOf src analysis parts).emitResolution) (hkey : e.key = e'.key) :
    ((inputOf src analysis parts).assertionOf f e).said = ((inputOf src analysis parts).assertionOf f e').said := by
  obtain ⟨p, hp, m, hm, he⟩ := mem_emitResolution he
  obtain ⟨p', hp', m', hm', he'⟩ := mem_emitResolution he'
  obtain ⟨hconf, hstate, hkind⟩ := mem_emitMapping he
  obtain ⟨hconf', hstate', hkind'⟩ := mem_emitMapping he'
  obtain ⟨confidence, aliases, hmaps⟩ := hc.mappings p hp
  obtain ⟨_, _, hmaps'⟩ := hc.mappings p' hp'
  have href := (mem_mappingsOf (hmaps ▸ hm)).1
  have href' := (mem_mappingsOf (hmaps' ▸ hm')).1
  obtain ⟨hpred, hsubject, hobject, -⟩ : e.predicate = e'.predicate ∧ e.subjectRef = e'.subjectRef ∧ e.objectRef = e'.objectRef ∧ _ := by
    simpa [Emit.key] using hkey
  have hrefs : m.canonicalRef = m'.canonicalRef := by
    rcases hkind with ⟨hp₁, ho₁⟩ | ⟨hp₁, ho₁⟩
    · rcases hkind' with ⟨-, ho₂⟩ | ⟨hp₂, -⟩
      · rw [← ho₁, ← ho₂, hobject]
      · rw [hp₁, hp₂] at hpred
        exact absurd hpred (by decide)
    · rcases hkind' with ⟨hp₂, -⟩ | ⟨-, ho₂⟩
      · rw [hp₁, hp₂] at hpred
        exact absurd hpred (by decide)
      · rw [← ho₁, ← ho₂, hsubject]
  obtain rfl : p = p' := eq_of_key hc.refs hp hp' (by rw [← href, ← href', hrefs])
  have hsame : e.confidence = e'.confidence := by
    rw [hconf, hconf', Mapping.emittedConfidence, Mapping.emittedConfidence, (mem_mappingsOf (hmaps ▸ hm)).2, (mem_mappingsOf (hmaps ▸ hm')).2]
  have hsamestate : (inputOf src analysis parts).stateFor f e = (inputOf src analysis parts).stateFor f e' := by
    unfold ReconciliationInput.stateFor
    rw [hsame, hstate, hstate', hsubject]
  simp only [Assertion.said, ReconciliationInput.assertionOf, hpred, hsubject, hobject, hsame, hsamestate]

theorem mem_saidBy {analysis : Buckets} {rows : List ScalarRow} {found : List (Option Part)} (h : rows.mapM (identityOf src) = .ok found)
    (x : String × String × String × ConfidenceState × Number) :
    x ∈ saidBy (emitted f src analysis rows) ↔
      x ∈ ((inputOf src analysis (found.filterMap id)).kept f).map fun e => ((inputOf src analysis (found.filterMap id)).assertionOf f e).said := by
  have hout : emitted f src analysis rows = .ok ((inputOf src analysis (found.filterMap id)).reconcile f) :=
    map_eq_ok.2 ⟨_, committedResolution_ok.2 ⟨found, h, rfl⟩, rfl⟩
  constructor
  · rintro ⟨as, has, hx⟩
    obtain rfl := Except.ok.inj (hout.symm.trans has)
    rwa [ReconciliationInput.reconcile, List.map_map] at hx
  · intro hx
    refine ⟨_, hout, ?_⟩
    rwa [ReconciliationInput.reconcile, List.map_map]

/-- Rows that are read in another order say the same where no two identities claim one surface. -/
theorem said_perm (hc : Committed parts) (hc' : Committed parts') (hp : parts.Perm parts') (hone : OneClaimant f src parts)
    (analysis : Buckets) (x : String × String × String × ConfidenceState × Number) :
    x ∈ ((inputOf src analysis parts).kept f).map (fun e => ((inputOf src analysis parts).assertionOf f e).said) ↔
      x ∈ ((inputOf src analysis parts').kept f).map fun e => ((inputOf src analysis parts').assertionOf f e).said := by
  have hres : (inputOf src analysis parts).emitResolution.Perm (inputOf src analysis parts').emitResolution := emitResolution_perm hp analysis
  have hsaid : (fun e => ((inputOf src analysis parts).assertionOf f e).said) = fun e => ((inputOf src analysis parts').assertionOf f e).said := by
    funext e
    simp only [Assertion.said, ReconciliationInput.assertionOf, stateFor_perm hp]
  have hobs : (inputOf src analysis parts).emitObservations f = (inputOf src analysis parts').emitObservations f :=
    emitObservations_congr rfl rfl (resolve_perm hc hc' hp hone analysis)
  have hrest : keepNew ((inputOf src analysis parts).emitResolution.map Emit.key ++ []) ((inputOf src analysis parts).emitObservations f) =
      keepNew ((inputOf src analysis parts').emitResolution.map Emit.key ++ []) ((inputOf src analysis parts').emitObservations f) := by
    rw [hobs]
    refine keepNew_congr (fun k => ?_) _
    rw [List.append_nil, List.append_nil, (hres.map Emit.key).mem_iff]
  unfold ReconciliationInput.kept ReconciliationInput.pending
  rw [keepNew_append, keepNew_append, List.map_append, List.map_append, List.mem_append, List.mem_append, hrest,
    said_keepNew (fun e he e' he' => mappings_agree hc he he'), said_keepNew (fun e he e' he' => mappings_agree hc' he he'), hsaid,
    (hres.map _).mem_iff]

/-! ## One mention -/

theorem paragraph_ne : "p" ≠ "" := by decide

def oneMention (surface : Text) : EntityMention where
  confidence := ⟨.ofNumber (.dec 9 1), inUnit_nine_tenths⟩
  segment := { locator := ⟨"p", paragraph_ne⟩ }
  generatedBy := {}
  mention := surface

/-- The analysis that mentions a surface. -/
def mentionOf (surface : Text) : Buckets
  | .entityMentions => [.entityMention (oneMention surface)]
  | _ => []

/-- An identity is read first in some order. -/
theorem read_first {rows : List ScalarRow} {found : List (Option Part)} (h : rows.mapM (identityOf src) = .ok found) {p : Part}
    (hp : p ∈ found.filterMap id) :
    ∃ (rows' : List ScalarRow) (rest : List (Option Part)), rows'.Perm rows ∧ rows'.mapM (identityOf src) = .ok (some p :: rest) ∧
      found.Perm (some p :: rest) := by
  obtain ⟨o, ho, rfl⟩ := List.mem_filterMap.1 hp
  obtain ⟨r, hr, hread⟩ := mapM_mem h _ ho
  obtain ⟨before, after, rfl⟩ := List.append_of_mem hr
  have hperm : (r :: (before ++ after)).Perm (before ++ r :: after) := List.perm_middle.symm
  obtain ⟨found', hfound', hp'⟩ := mapM_perm hperm.symm h
  obtain ⟨o, rest, ho', hrest, rfl⟩ := mapM_cons_ok.1 hfound'
  obtain rfl : some p = o := Except.ok.inj (hread.symm.trans ho')
  exact ⟨_, rest, hperm, hfound', hp'⟩

/-- An identity that claims a surface is bound to it in some order. -/
theorem binds_first {rows : List ScalarRow} {found : List (Option Part)} (hc : Committed (found.filterMap id))
    (h : rows.mapM (identityOf src) = .ok found) {surface ref : String} (hs : surface ≠ "") (hb : Binds (found.filterMap id) surface ref) :
    ∃ (rows' : List ScalarRow) (found' : List (Option Part)), rows'.Perm rows ∧ rows'.mapM (identityOf src) = .ok found' ∧
      (ofParts (found'.filterMap id)).surfaces.lookup surface = some ref := by
  rcases hb with ⟨p, hp, rfl, rfl⟩ | ⟨hnone, p, hp, m, hm, htext, rfl⟩
  · obtain ⟨rows', rest, hperm, hread, -⟩ := read_first h hp
    refine ⟨rows', _, hperm, hread, ?_⟩
    simp [Resolution.surfaces, ofParts, hs]
  · obtain ⟨rows', rest, hperm, hread, hfound⟩ := read_first h hp
    refine ⟨rows', _, hperm, hread, ?_⟩
    obtain ⟨confidence, aliases, hmaps⟩ := hc.mappings p hp
    have hlabels :
        ((((p :: rest.filterMap id).map (·.1)).filter (·.label ≠ "")).map fun ce => (ce.label, ce.ref)).lookup surface = none := by
      refine List.lookup_eq_none_iff.2 fun q hq => ?_
      obtain ⟨ce, hce, rfl⟩ := List.mem_map.1 hq
      obtain ⟨p', hp', rfl⟩ := List.mem_map.1 (List.mem_filter.1 hce).1
      have hne := hnone p' ((hfound.filterMap id).mem_iff.2 hp')
      exact bne_iff_ne.2 fun heq => hne heq.symm
    have haliases : ((p.2.filter (·.aliasText ≠ "")).map fun am => (am.aliasText, am.canonicalRef)).lookup surface = some m.canonicalRef := by
      have hin : (surface, m.canonicalRef) ∈ (p.2.filter (·.aliasText ≠ "")).map fun am => (am.aliasText, am.canonicalRef) :=
        List.mem_map.2 ⟨m, List.mem_filter.2 ⟨hm, decide_eq_true (htext ▸ hs)⟩, by rw [htext]⟩
      cases hl : ((p.2.filter (·.aliasText ≠ "")).map fun am => (am.aliasText, am.canonicalRef)).lookup surface with
      | none => simpa using List.lookup_eq_none_iff.1 hl _ hin
      | some ref =>
        obtain ⟨m', hm', heq⟩ := List.mem_map.1 (lookup_mem hl)
        have href : m'.canonicalRef = ref := congrArg Prod.snd heq
        have hmem : m ∈ mappingsOf p.1.ref confidence aliases := hmaps ▸ hm
        have hmem' : m' ∈ mappingsOf p.1.ref confidence aliases := hmaps ▸ (List.mem_filter.1 hm').1
        rw [← href, (mem_mappingsOf hmem).1, (mem_mappingsOf hmem').1]
    show (List.lookup surface (_ ++ (((p.2 ++ (rest.filterMap id).flatMap (·.2)).filter _).map _))) = _
    rw [List.lookup_append, List.filter_append, List.map_append, List.lookup_append]
    rw [show (ofParts ((some p :: rest).filterMap id)).canonicalEntities = (p :: rest.filterMap id).map (·.1) from rfl, hlabels, haliases]
    rfl

/-- No mapping says where an entity is mentioned. -/
theorem mapping_predicate {analysis : Buckets} {e : Emit} (he : e ∈ (inputOf src analysis parts).emitResolution) :
    e.predicate ≠ "MENTIONED_IN" := by
  obtain ⟨_, -, m, -, hm⟩ := mem_emitResolution he
  rcases (mem_emitMapping hm).2.2 with ⟨h, -⟩ | ⟨h, -⟩
  · rw [h]
    decide
  · rw [h]
    decide

/-- The assertion of a mention is about the ref that its surface is bound to, and no other. -/
theorem mentioned_iff {surface : Text} {ref : String} (hb : (ofParts parts).surfaces.lookup surface.value = some ref) (subject : String) :
    (∃ x ∈ ((inputOf src (mentionOf surface) parts).kept f).map fun e => ((inputOf src (mentionOf surface) parts).assertionOf f e).said,
      x.1 = "MENTIONED_IN" ∧ x.2.1 = subject) ↔ subject = entityRef f src surface.value ref := by
  let e := emitOf (.about surface.value) (oneMention surface).toSemanticCandidate "MENTIONED_IN" (entityRef f src surface.value ref) "p"
  have hobs : (inputOf src (mentionOf surface) parts).emitObservations f = [e] := by
    have hmention : (inputOf src (mentionOf surface) parts).emitMention f (oneMention surface) = [e] := by
      have hres : (inputOf src (mentionOf surface) parts).resolve f (some (oneMention surface).mention.value) =
          some (entityRef f src surface.value ref) := by
        rw [show (oneMention surface).mention.value = surface.value from rfl, resolve_eq surface.nonempty, hb]
        rfl
      unfold ReconciliationInput.emitMention ReconciliationInput.aboutEntity
      rw [hres]
      rfl
    show [] ++ [] ++ ([oneMention surface].flatMap _) ++ [] ++ [] ++ [] ++ [] ++ [] ++ [] ++ [] = [e]
    simp [hmention]
  have hnew : e.key ∉ (inputOf src (mentionOf surface) parts).emitResolution.map Emit.key := by
    intro hin
    obtain ⟨e', he', hkey⟩ := List.mem_map.1 hin
    exact mapping_predicate he' (congrArg Prod.fst hkey)
  have hkept : (inputOf src (mentionOf surface) parts).kept f = keepNew [] (inputOf src (mentionOf surface) parts).emitResolution ++ [e] := by
    unfold ReconciliationInput.kept ReconciliationInput.pending
    rw [keepNew_append, hobs, List.append_nil, keepNew_cons, if_neg hnew]
    rfl
  rw [hkept]
  constructor
  · rintro ⟨x, hx, hpred, rfl⟩
    obtain ⟨e', he', rfl⟩ := List.mem_map.1 hx
    rcases List.mem_append.1 he' with he' | he'
    · exact absurd hpred (mapping_predicate (mem_keepNew he').1)
    · rw [List.mem_singleton.1 he']
      rfl
  · rintro rfl
    exact ⟨_, List.mem_map.2 ⟨e, List.mem_append_right _ (List.mem_singleton.2 rfl), rfl⟩, rfl, rfl⟩

/-! ## The order of the rows -/

theorem committed_perm {s : CurrentState} {rows : List ScalarRow} (hp : rows.Perm s.identities) {found : List (Option Part)}
    (h : rows.mapM (identityOf src) = .ok found) : Committed (found.filterMap id) :=
  committed_of_rows ((hp.map _).nodup_iff.2 (identities_refs s)) h

/-- Whatever the order in which the identities of a state are read, the same assertions are emitted of every analysis, if and only if no
two of them claim one surface. -/
theorem assertions_order_iff (f : TextFunctions) (s : CurrentState) (src : Source) :
    (∀ (analysis : Buckets) (rows rows' : List ScalarRow), rows.Perm s.identities → rows'.Perm s.identities →
        saidBy (emitted f src analysis rows) = saidBy (emitted f src analysis rows')) ↔
      ∀ found, s.identities.mapM (identityOf src) = .ok found → OneClaimant f src (found.filterMap id) := by
  constructor
  · intro hall found hfound surface ref ref' hs hb hb'
    have hc := committed_perm (List.Perm.refl _) hfound
    obtain ⟨rows, read, hp, hread, hlook⟩ := binds_first hc hfound hs hb
    obtain ⟨rows', read', hp', hread', hlook'⟩ := binds_first hc hfound hs hb'
    have hsame := hall (mentionOf ⟨surface, hs⟩) rows rows' hp hp'
    have hmentioned := @mentioned_iff f src _ ⟨surface, hs⟩ ref hlook (entityRef f src surface ref)
    have hmentioned' := @mentioned_iff f src _ ⟨surface, hs⟩ ref' hlook' (entityRef f src surface ref)
    obtain ⟨x, hx, hpred, hsubject⟩ := hmentioned.2 rfl
    have hx' : x ∈ saidBy (emitted f src (mentionOf ⟨surface, hs⟩) rows') := hsame ▸ (mem_saidBy hread x).2 hx
    exact hmentioned'.1 ⟨x, (mem_saidBy hread' x).1 hx', hpred, hsubject⟩
  · intro hone analysis rows rows' hp hp'
    ext x
    cases hread : rows.mapM (identityOf src) with
    | ok found =>
      obtain ⟨found', hread', hperm⟩ := mapM_perm (hp.trans hp'.symm) hread
      obtain ⟨given, hgiven, hperm'⟩ := mapM_perm hp hread
      have hone' : OneClaimant f src (found.filterMap id) := by
        intro surface ref ref' hs hb hb'
        have hsame := hperm'.filterMap id
        exact hone given hgiven surface ref ref' hs ((binds_perm hsame).1 hb) ((binds_perm hsame).1 hb')
      rw [mem_saidBy hread, mem_saidBy hread', said_perm (committed_perm hp hread) (committed_perm hp' hread') (hperm.filterMap id) hone']
    | error e =>
      have hfails : ∀ rows'', rows.Perm rows'' → ∀ y, y ∉ saidBy (emitted f src analysis rows'') := by
        rintro rows'' hp'' y ⟨as, has, -⟩
        obtain ⟨res, hres, -⟩ := map_eq_ok.1 has
        obtain ⟨found, hfound, -⟩ := committedResolution_ok.1 hres
        obtain ⟨_, hok, -⟩ := mapM_perm hp''.symm hfound
        rw [hread] at hok
        cases hok
      exact ⟨fun h => absurd h (hfails rows (List.Perm.refl _) x), fun h => absurd h (hfails rows' (hp.trans hp'.symm) x)⟩

/-- An accepted identity labelled `Alex`, in the scope of the source `s`. -/
def alex (ref : String) : ScalarRow where
  entityRef := ref
  predicate := canonicalIdentity
  objectRef := some "\x7b\"display_label\": \"Alex\", \"classification\": \"accepted\", \"memberships\": \x7b\"source_ids\": [\"s\"]\x7d\x7d"
  confidence := .null
  authority := .null
  state := .null
  seq := 1

def twoAlexes : CurrentState where
  states := [alex "canonical:a", alex "canonical:b"]
  keys := by decide

/-- Two identities labelled `Alex`: what is mentioned as `Alex` is the one that is read first. -/
theorem alex_is_first : ¬ ∀ (f : TextFunctions) (s : CurrentState) (src : Source) (analysis : Buckets) (rows rows' : List ScalarRow),
    rows.Perm s.identities → rows'.Perm s.identities → saidBy (emitted f src analysis rows) = saidBy (emitted f src analysis rows') := by
  intro hall
  have hsame := hall ⟨id, id⟩ twoAlexes { id := "s" } (mentionOf ⟨"Alex", by decide⟩) [alex "canonical:a", alex "canonical:b"]
    [alex "canonical:b", alex "canonical:a"] (List.Perm.refl _) (List.Perm.swap ..)
  have hfirst : ((emitted ⟨id, id⟩ { id := "s" } (mentionOf ⟨"Alex", by decide⟩) [alex "canonical:a", alex "canonical:b"]).map
      fun as => as.map Assertion.said) = .ok [("MENTIONED_IN", "canonical:a", "p", .confirmed, .dec 9 1)] := by decide +kernel
  have hsecond : ((emitted ⟨id, id⟩ { id := "s" } (mentionOf ⟨"Alex", by decide⟩) [alex "canonical:b", alex "canonical:a"]).map
      fun as => as.map Assertion.said) = .ok [("MENTIONED_IN", "canonical:b", "p", .confirmed, .dec 9 1)] := by decide +kernel
  obtain ⟨as, has, hsaid⟩ := map_eq_ok.1 hfirst
  obtain ⟨as', has', hsaid'⟩ := map_eq_ok.1 hsecond
  have hin : ("MENTIONED_IN", "canonical:a", "p", ConfidenceState.confirmed, Number.dec 9 1) ∈
      saidBy (emitted ⟨id, id⟩ { id := "s" } (mentionOf ⟨"Alex", by decide⟩) [alex "canonical:a", alex "canonical:b"]) :=
    ⟨as, has, by rw [hsaid]; exact List.mem_singleton.2 rfl⟩
  rw [hsame] at hin
  obtain ⟨as'', has'', hmem⟩ := hin
  obtain rfl := Except.ok.inj (has'.symm.trans has'')
  rw [hsaid'] at hmem
  revert hmem
  decide

end Umd.Reconciliation
