import Umd.Lib.JsonDict
import Umd.Lib.Orders
import Umd.Projections.Quarantine
/-!
# The scopes of a canonical

What the end of a search run leaves of a canonical identity: a document of its label,
one for each source it is recorded in, and none of a scope that was not recorded. Once
there is one correlated tuple the other lists of the memberships are not read
(`scopes_indexed`).
-/

namespace Umd.Projections

open Umd.Lib Umd.Events Umd.Reducer Umd.Ledger

/-! ## Rows name an entity -/

theorem pyStr_ne {j : Json} (h : j.truthy = true) : pyStr j ≠ "" := by
  have append_ne : ∀ {s t u : String}, t ≠ "" → s ++ t ++ u ≠ "" := by
    intro s t u ht he
    have hl := congrArg String.toList he
    rw [String.toList_append, String.toList_append] at hl
    exact ht (String.toList_inj.1 (List.append_eq_nil_iff.1 (List.append_eq_nil_iff.1 hl).1).2)
  cases j with
  | null => cases h
  | bool b =>
    cases b with
    | false => cases h
    | true => exact show "True" ≠ "" by decide
  | num n =>
    match n with
    | .dec (.ofNat m) 0 => exact Nat.repr_ne_empty
    | .dec (.negSucc m) 0 => simp [pyStr, pyRepr, Number.text, toString, Int.repr]
    | .dec m (e + 1) => exact append_ne (s := _) (t := ".") (by decide)
    | .nan => exact show "nan" ≠ "" by decide
    | .inf => exact show "inf" ≠ "" by decide
    | .negInf => exact show "-inf" ≠ "" by decide
  | str s => exact of_decide_eq_true h
  | arr xs => simp [pyStr, pyRepr]
  | obj d => simp [pyStr, pyRepr]

theorem firstRef_ne {p : Dict} {fields : List String} {ref : String} (h : firstRef p fields = some ref) : ref ≠ "" := by
  induction fields with
  | nil => cases h
  | cons f fields ih =>
    rw [firstRef] at h
    split at h
    · rename_i ht
      cases h
      exact pyStr_ne ht
    · exact ih h

/-- Every row is of an entity with a name. -/
def Named (rows : Key → Option CurrentStateRow) : Prop := ∀ k row, rows k = some row → k.1 ≠ ""

theorem Named.upd {rows : Key → Option CurrentStateRow} {k : Key} {v : CurrentStateRow} (h : Named rows) (hk : k.1 ≠ "") :
    Named (upd rows k (some v)) := by
  intro k' row hrow
  by_cases he : k' = k
  · exact he ▸ hk
  · rw [upd_ne _ _ he] at hrow
    exact h k' row hrow

theorem reduce_named {s s' : CurrentReducedState} {ev : SemanticEvent} (hs : Named s.rows) (h : reduce s ev = .ok s') :
    Named s'.rows := by
  unfold reduce at h
  split at h
  · split at h
    · rename_i ref href
      cases h
      refine Named.upd (fun k row hrow => ?_) (firstRef_ne href)
      obtain ⟨row', hrow', -⟩ := Option.map_eq_some_iff.1 hrow
      exact hs k row' hrow'
    · cases h
      exact hs
  · split at h
    · cases h
      exact hs
    · rename_i target htarget
      split at h
      · cases h
        exact hs
      · have hne : target.1 ≠ "" := by
          unfold eventTarget at htarget
          split at htarget
          · cases htarget
          · split at htarget
            · cases htarget
            · rename_i ref href
              have hr := firstRef_ne href
              repeat' split at htarget
              all_goals first | (cases htarget; exact hr) | cases htarget
        unfold reduceChange at h
        split at h
        · cases h
          exact hs
        · dsimp only at h
          have hrows : Named (upd s.rows target (some (reduceCurrentState (s.rowOrSeed target) ev))) := Named.upd hs hne
          split at h
          · cases h
            exact hrows
          · rename_i k hk
            cases hi : reduceCanonicalIdentity (s.rowOrSeed k) ev with
            | error e => rw [hi] at h; cases h
            | ok identity =>
              rw [hi] at h
              cases h
              refine Named.upd hrows ?_
              unfold identityKey identityEventTarget at hk
              split at hk
              · rename_i k' hk'
                split at hk'
                · rename_i ht
                  cases hk'
                  split at hk
                  · cases hk
                  · cases hk
                    exact pyStr_ne ht
                · cases hk'
              · cases hk

theorem replay_named {events : List SemanticEvent} {s : CurrentReducedState} (h : replay events = .ok s) : Named s.rows :=
  @reduceAll_inv (fun _ s => Named s.rows) (fun _ _ _ _ hs h => reduce_named hs h) events [] {} s (fun _ _ h => by cases h) h

/-! ## The documents of a canonical -/

/-- A document of the canonical entity. -/
def OfCanonical (ref : String) (doc : SearchDoc) : Prop := doc.kind = .canonicalEntity ∧ doc.entityRef = some ref

/-- `str(meta.get("display_label") or "")` -/
def labelOf (row : CurrentStateRow) : String := (strOrNone ((parseMetadata row.objectRef).get "display_label")).getD ""

/-- `meta.get("memberships")` -/
def recordedMemberships (row : CurrentStateRow) : Dict := scopeMemberships (parseMetadata row.objectRef)

/-- The correlated tuples of the row, well formed or not. -/
def correlatedTuples (row : CurrentStateRow) : List Json :=
  match (recordedMemberships row).get "tuples" with
  | .arr ts => ts
  | _ => []

/-- The scope of a document. -/
def SearchDoc.scope (doc : SearchDoc) : Scope := ⟨doc.sourceId, doc.workId, doc.continuityId⟩

/-- `_upsert` stores no empty text. -/
def Scope.stored (sc : Scope) : Scope := ⟨nonEmpty sc.sourceId, nonEmpty sc.workId, nonEmpty sc.continuityId⟩

/-- What the documents of one scope are: one of the label and one of each alias. -/
theorem identityDocs_docs {ref : String} {row : CurrentStateRow} {sc : Scope} {docs : List SearchDoc}
    (h : identityDocs ref row (parseMetadata row.objectRef) sc = .ok docs) :
    ∃ aliases, pyList ((parseMetadata row.objectRef).get "aliases") = .ok aliases ∧
      (∃ doc ∈ docs, doc.text = labelOf row ∧ doc.ref = scopedRef ref sc) ∧
      (∀ name ∈ aliases, name.truthy = true → ∃ doc ∈ docs, doc.text = pyStr name ∧
        doc.ref = scopedRef (ref ++ "::alias::" ++ shaDigits (pyStr name)) sc) ∧
      ∀ doc ∈ docs, doc.kind = .canonicalEntity ∧ doc.entityRef = nonEmpty (some ref) ∧ doc.scope = sc.stored ∧
        (doc.text = labelOf row ∨ ∃ name ∈ aliases, name.truthy = true ∧ doc.text = pyStr name) := by
  unfold identityDocs at h
  cases ha : pyList ((parseMetadata row.objectRef).get "aliases") with
  | error e => rw [ha] at h; cases h
  | ok aliases =>
    rw [ha] at h
    cases h
    refine ⟨aliases, rfl, ⟨_, List.mem_cons_self, rfl, rfl⟩, fun name hname ht => ?_, fun doc hdoc => ?_⟩
    · exact ⟨_, List.mem_cons_of_mem _ (List.mem_map_of_mem (List.mem_filter.2 ⟨hname, ht⟩)), rfl, rfl⟩
    · rcases List.mem_cons.1 hdoc with rfl | hdoc
      · exact ⟨rfl, rfl, rfl, .inl rfl⟩
      · obtain ⟨name, hname, rfl⟩ := List.mem_map.1 hdoc
        obtain ⟨hmem, ht⟩ := List.mem_filter.1 hname
        exact ⟨rfl, rfl, rfl, .inr ⟨name, hmem, ht, rfl⟩⟩

/-- A scope is indexed under a text where the entity has a name. -/
theorem scopedRef_ne {ref : String} (h : ref ≠ "") (sc : Scope) : scopedRef ref sc ≠ "" := by
  unfold scopedRef
  dsimp only
  split
  · exact h
  · intro he
    have hl := congrArg String.toList he
    rw [String.toList_append, String.toList_append] at hl
    exact h (String.toList_inj.1 (List.append_eq_nil_iff.1 (List.append_eq_nil_iff.1 hl).1).1)

/-- The documents of the row are those of its scopes. -/
theorem indexCanonicalIdentity_scopes {ref : String} {row : CurrentStateRow} {docs : List SearchDoc}
    (h : indexCanonicalIdentity ref row = .ok docs) : ∃ scopes, scopeCombos (recordedMemberships row) = .ok scopes ∧
      (∀ sc ∈ scopes, ∃ part, identityDocs ref row (parseMetadata row.objectRef) sc = .ok part ∧ part ⊆ docs) ∧
      ∀ doc ∈ docs, ∃ sc ∈ scopes, ∃ part, identityDocs ref row (parseMetadata row.objectRef) sc = .ok part ∧ doc ∈ part := by
  unfold indexCanonicalIdentity at h
  dsimp only at h
  change (scopeCombos (recordedMemberships row)).bind _ = _ at h
  cases hs : scopeCombos (recordedMemberships row) with
  | error e => rw [hs] at h; cases h
  | ok scopes =>
    rw [hs] at h
    change (scopes.mapM (identityDocs ref row (parseMetadata row.objectRef))).bind _ = _ at h
    cases hm : scopes.mapM (identityDocs ref row (parseMetadata row.objectRef)) with
    | error e => rw [hm] at h; cases h
    | ok parts =>
      rw [hm] at h
      cases h
      refine ⟨scopes, rfl, fun sc hsc => ?_, fun doc hdoc => ?_⟩
      · obtain ⟨part, hpart, hok⟩ := mapM_each hm sc hsc
        exact ⟨part, hok, fun doc hdoc => List.mem_flatten.2 ⟨part, hpart, hdoc⟩⟩
      · obtain ⟨part, hpart, hdoc⟩ := List.mem_flatten.1 hdoc
        obtain ⟨sc, hsc, hok⟩ := mapM_mem hm part hpart
        exact ⟨sc, hsc, part, hok, hdoc⟩

/-! ## What the end of a run leaves -/

theorem sameKey_iff {doc doc' : SearchDoc} : doc.sameKey doc' = true ↔ doc.kind = doc'.kind ∧ doc.ref = doc'.ref := by
  simp [SearchDoc.sameKey]

theorem foldl_upsert_from {ds : List SearchDoc} : ∀ {t : DocTable} {doc : SearchDoc}, doc ∈ ds.foldl DocTable.upsert t →
    doc ∈ t ∨ (doc ∈ ds ∧ doc.text ≠ "") := by
  induction ds with
  | nil => exact fun h => .inl h
  | cons d ds ih =>
    intro t doc h
    rw [List.foldl_cons] at h
    rcases ih h with h | ⟨h, ht⟩
    · rw [mem_upsert] at h
      split at h
      · exact .inl h
      · rename_i hne
        rcases h with rfl | ⟨h, -⟩
        · exact .inr ⟨List.mem_cons_self, fun ht => hne (.inr ht)⟩
        · exact .inl h
    · exact .inr ⟨List.mem_cons_of_mem _ h, ht⟩

/-- A document is left where no other of its key is put. -/
theorem foldl_upsert_keeps {ds : List SearchDoc} {doc : SearchDoc} (hr : doc.ref ≠ "") (ht : doc.text ≠ "")
    (hsame : ∀ d ∈ ds, d.sameKey doc = true → d = doc) :
    ∀ {t : DocTable}, doc ∈ t ∨ doc ∈ ds → doc ∈ ds.foldl DocTable.upsert t := by
  induction ds with
  | nil => exact fun h => h.resolve_right nofun
  | cons d ds ih =>
    intro t h
    rw [List.foldl_cons]
    refine ih (fun d' hd' => hsame d' (List.mem_cons_of_mem _ hd')) ?_
    by_cases hd : d = doc
    · left
      rw [mem_upsert, hd, if_neg (by simp [hr, ht])]
      exact .inl rfl
    · have hkey : doc.sameKey d = false := by
        rw [Bool.eq_false_iff]
        intro hs
        obtain ⟨hk, hrf⟩ := sameKey_iff.1 hs
        exact hd (hsame d List.mem_cons_self (sameKey_iff.2 ⟨hk.symm, hrf.symm⟩))
      rcases h with h | h
      · left
        rw [mem_upsert]
        split
        · exact h
        · exact .inr ⟨h, hkey⟩
      · exact .inr ((List.mem_cons.1 h).resolve_left fun he => hd he.symm)

variable {listed : CurrentReducedState → List Key} {edgeCp : Option ProjectionCheckpoint}

/-- The documents of canonicals are those of the rows, but for empty texts and refs of the edge documents. -/
theorem finalizeSearch_canonical {d : Driver} {edges : EdgeTable} {t t' : DocTable}
    (h : finalizeSearch listed edgeCp d edges t = .ok t') :
    ∃ parts, (rowItems listed d.state).mapM (canonicalDocs d.state) = .ok parts ∧
      (∀ doc ∈ t', doc.kind = .canonicalEntity → doc ∈ parts.flatten ∧ doc.text ≠ "") ∧
      ∀ doc ∈ parts.flatten, doc.ref ≠ "" → doc.text ≠ "" → isEdgeRef doc.ref = false →
        (∀ doc' ∈ parts.flatten, doc'.sameKey doc = true → doc' = doc) → doc ∈ t' := by
  rw [finalizeSearch_eq] at h
  unfold baseDocs at h
  cases hm : (rowItems listed d.state).mapM (canonicalDocs d.state) with
  | error e => rw [hm] at h; cases h
  | ok parts =>
    rw [hm] at h
    simp only [bind, Except.bind, pure, Except.pure] at h
    split at h
    · cases h
    · cases h
      have hedge : ∀ doc ∈ activeDocs edges, doc.kind ≠ .canonicalEntity := by
        intro doc hdoc
        obtain ⟨r, -, rfl⟩ := List.mem_map.1 hdoc
        exact nofun
      have hcanon : ∀ doc ∈ parts.flatten, doc.kind = .canonicalEntity := by
        intro doc hdoc
        obtain ⟨part, hpart, hdoc⟩ := List.mem_flatten.1 hdoc
        obtain ⟨item, -, hitem⟩ := mapM_mem hm part hpart
        exact canonicalDocs_kind hitem doc hdoc
      refine ⟨parts, rfl, fun doc hdoc hk => ?_, fun doc hdoc hr ht he hsame => ?_⟩
      · rw [mem_foldl_upsert hedge hk, List.mem_filter] at hdoc
        refine (foldl_upsert_from hdoc.1).resolve_left fun hold => ?_
        simp [hk] at hold
      · rw [mem_foldl_upsert hedge (hcanon doc hdoc), List.mem_filter]
        exact ⟨foldl_upsert_keeps hr ht hsame (.inr hdoc), by rw [he]; rfl⟩

/-! ## The scopes that are indexed -/

/-- The source a tuple names, with however many components. -/
def tupleSource : Json → Option String
  | .arr (source :: _) => strOrNone source
  | _ => none

/-- The source is recorded, among the source ids or in a tuple. -/
def Recorded (row : CurrentStateRow) (source : String) : Prop :=
  source ≠ "" ∧
    ((∃ xs, pyList ((recordedMemberships row).get "source_ids") = .ok xs ∧ ∃ x ∈ xs, pyStr x = source) ∨
      ∃ τ ∈ correlatedTuples row, tupleSource τ = some source)

/-- A label or an alias is there to be indexed. -/
def HasText (row : CurrentStateRow) : Prop :=
  labelOf row ≠ "" ∨ ∃ names, pyList ((parseMetadata row.objectRef).get "aliases") = .ok names ∧ ∃ name ∈ names, name.truthy = true

/-- What the documents of a canonical should be. -/
structure ScopesKept (t : DocTable) (ref : String) (row : CurrentStateRow) : Prop where
  labelled : labelOf row ≠ "" → ∃ doc ∈ t, OfCanonical ref doc ∧ doc.text = labelOf row
  sources : ∀ source, Recorded row source → ∃ doc ∈ t, OfCanonical ref doc ∧ doc.sourceId = some source
  correlated : ∀ doc ∈ t, OfCanonical ref doc → ∀ source, doc.sourceId = some source →
    (∃ τ ∈ correlatedTuples row, ∃ sc, tupleScope τ = some sc ∧ sc.sourceId = some source) →
    ∃ τ ∈ correlatedTuples row, tupleScope τ = some doc.scope

/-- There is a text to index, and where there are tuples, one is well formed and every source has one that is. -/
def Indexed (row : CurrentStateRow) : Prop :=
  (∀ source, Recorded row source → HasText row) ∧
    (correlatedTuples row ≠ [] →
      (labelOf row ≠ "" → ∃ τ ∈ correlatedTuples row, (tupleScope τ).isSome = true) ∧
        ∀ source, Recorded row source → ∃ τ ∈ correlatedTuples row, (tupleScope τ).bind (·.sourceId) = some source)

/-- The refs of the canonical's documents are no refs of other documents, nor of the edge documents. -/
def Unshared (s : CurrentReducedState) (ref : String) (row : CurrentStateRow) : Prop :=
  ∀ docs, indexCanonicalIdentity ref row = .ok docs → ∀ doc ∈ docs, isEdgeRef doc.ref = false ∧
    ∀ k row' docs', s.rows k = some row' → canonicalDocs s (k, row') = .ok docs' → ∀ doc' ∈ docs', doc'.ref = doc.ref → doc' = doc

theorem scopeCombos_tuples {row : CurrentStateRow} (h : correlatedTuples row ≠ []) :
    scopeCombos (recordedMemberships row) = .ok ((correlatedTuples row).filterMap tupleScope) := by
  unfold correlatedTuples at h ⊢
  unfold scopeCombos
  split at h
  · rename_i ts hts
    cases ts with
    | nil => exact absurd rfl h
    | cons t ts => rw [hts]
  · exact absurd rfl h

/-- With no tuple there is a scope, and one for each source id. -/
theorem scopeCombos_legacy {row : CurrentStateRow} {scopes : List Scope} (h : correlatedTuples row = [])
    (hs : scopeCombos (recordedMemberships row) = .ok scopes) :
    scopes ≠ [] ∧ ∀ xs, pyList ((recordedMemberships row).get "source_ids") = .ok xs →
      ∀ x ∈ xs, ∃ sc ∈ scopes, sc.sourceId = some (pyStr x) := by
  unfold correlatedTuples at h
  unfold scopeCombos at hs
  split at hs
  · rename_i t ts hts
    rw [hts] at h
    cases h
  · cases hx : pyList ((recordedMemberships row).get "source_ids") with
    | error e => rw [hx] at hs; cases hs
    | ok xs =>
      cases hy : pyList ((recordedMemberships row).get "work_ids") with
      | error e => rw [hx, hy] at hs; cases hs
      | ok ys =>
        cases hz : pyList ((recordedMemberships row).get "continuity_ids") with
        | error e => rw [hx, hy, hz] at hs; cases hs
        | ok zs =>
          rw [hx, hy, hz] at hs
          simp only [bind, Except.bind, pure, Except.pure] at hs
          have sorted_ne : ∀ ys : List String, ∃ y, y ∈ sortedOr ys := by
            intro ys
            unfold sortedOr
            split
            · exact ⟨none, List.mem_singleton_self _⟩
            · rename_i hne
              obtain ⟨y, hy⟩ := List.exists_mem_of_ne_nil ys (by simpa using hne)
              exact ⟨some y, List.mem_map_of_mem ((List.mem_insertionSort _).2 (List.mem_dedup.2 hy))⟩
          obtain ⟨w, hw⟩ := sorted_ne (ys.map pyStr)
          obtain ⟨c, hc⟩ := sorted_ne (zs.map pyStr)
          split at hs
          · rename_i hnil
            cases hs
            refine ⟨List.cons_ne_nil _ _, fun xs' hxs' x hxm => ?_⟩
            cases hxs'
            rw [List.isEmpty_map, List.isEmpty_iff] at hnil
            rw [hnil] at hxm
            cases hxm
          · rename_i hne
            cases hs
            have hscope : ∀ x ∈ xs, (⟨some (pyStr x), w, c⟩ : Scope) ∈ (sortedOr (xs.map pyStr)).flatMap fun s =>
                (sortedOr (ys.map pyStr)).flatMap fun w => (sortedOr (zs.map pyStr)).map fun c => (⟨s, w, c⟩ : Scope) := by
              intro x hxm
              have hs : some (pyStr x) ∈ sortedOr (xs.map pyStr) := by
                unfold sortedOr
                rw [if_neg hne]
                exact List.mem_map_of_mem ((List.mem_insertionSort _).2 (List.mem_dedup.2 (List.mem_map_of_mem hxm)))
              exact List.mem_flatMap.2 ⟨_, hs, List.mem_flatMap.2 ⟨w, hw, List.mem_map.2 ⟨c, hc, rfl⟩⟩⟩
            refine ⟨?_, fun xs' hxs' x hxm => ?_⟩
            · obtain ⟨x, hxm⟩ := List.exists_mem_of_ne_nil xs (by simpa using hne)
              exact List.ne_nil_of_mem (hscope x hxm)
            · cases hxs'
              exact ⟨_, hscope x hxm, rfl⟩

theorem nonEmpty_some {s : String} (h : s ≠ "") : nonEmpty (some s) = some s := by simp [nonEmpty, h]

theorem nonEmpty_strOrNone (j : Json) : nonEmpty (strOrNone j) = strOrNone j := by
  unfold strOrNone
  split
  · rename_i ht
    exact nonEmpty_some (pyStr_ne ht)
  · rfl

/-- The components of a tuple are stored as they are read. -/
theorem stored_tuple {τ : Json} {sc : Scope} (h : tupleScope τ = some sc) : sc.stored = sc := by
  unfold tupleScope at h
  split at h
  · cases h
    simp only [Scope.stored, nonEmpty_strOrNone]
  · cases h

/-- The source of a tuple that is well formed is the one it names. -/
theorem tupleSource_eq {τ : Json} {sc : Scope} (h : tupleScope τ = some sc) : sc.sourceId = tupleSource τ := by
  unfold tupleScope at h
  split at h
  · cases h
    rfl
  · cases h

/-- A row without a text has neither label nor tuples. -/
theorem no_object {row : CurrentStateRow} (h : nonEmpty row.objectRef = none) : parseMetadata row.objectRef = [] := by
  unfold nonEmpty at h
  unfold parseMetadata
  cases ho : row.objectRef with
  | none => rfl
  | some text =>
    rw [ho, Option.filter_some] at h
    split at h
    · cases h
    · rename_i hne
      have ht : text = "" := by simpa using hne
      rw [ht]
      rfl

section
variable {s : CurrentReducedState} {ref : String} {row : CurrentStateRow}

/-- The documents of the row in the state. -/
theorem canonicalDocs_identity {docs : List SearchDoc} (h : canonicalDocs s ((ref, canonicalIdentity), row) = .ok docs)
    (ho : nonEmpty row.objectRef ≠ none) : indexCanonicalIdentity ref row = .ok docs := by
  unfold canonicalDocs at h
  dsimp only at h
  split at h
  · rename_i hn
    exact absurd hn ho
  · rw [if_pos rfl] at h
    exact h

/-- A document of the canonical is one of its identity row. -/
theorem canonicalDocs_of {k : Key} {row' : CurrentStateRow} {docs : List SearchDoc} {doc : SearchDoc}
    (hrow : s.rows (ref, canonicalIdentity) = some row) (hk : s.rows k = some row') (h : canonicalDocs s (k, row') = .ok docs)
    (hdoc : doc ∈ docs) (he : doc.entityRef = some ref) : indexCanonicalIdentity ref row = .ok docs := by
  obtain ⟨r, predicate⟩ := k
  unfold canonicalDocs at h
  dsimp only at h
  split at h
  · cases h
    cases hdoc
  · split at h
    · rename_i hp
      obtain ⟨scopes, -, -, hfrom⟩ := indexCanonicalIdentity_scopes h
      obtain ⟨sc, -, part, hpart, hin⟩ := hfrom doc hdoc
      obtain ⟨_, -, -, -, hall⟩ := identityDocs_docs hpart
      have hr : r = ref := Option.some.inj (nonEmpty_eq ((hall doc hin).2.1.symm.trans he)).1
      rw [hr, hp, hrow] at hk
      cases hk
      exact hr ▸ h
    · split at h
      · rename_i hp
        cases h
        cases List.mem_singleton.1 hdoc
        have hr : r = ref := Option.some.inj (nonEmpty_eq he).1
        rw [hr, hrow] at hp
        simp at hp
      · cases h
        cases hdoc

/-- What a document of the canonical that is left was made of. -/
theorem left_from {listed : CurrentReducedState → List Key} {parts : List (List SearchDoc)} {doc : SearchDoc}
    (hrow : s.rows (ref, canonicalIdentity) = some row) (hparts : (rowItems listed s).mapM (canonicalDocs s) = .ok parts)
    (hdoc : doc ∈ parts.flatten) (he : doc.entityRef = some ref) :
    ∃ scopes, scopeCombos (recordedMemberships row) = .ok scopes ∧
      ∃ sc ∈ scopes, doc.scope = sc.stored ∧ (doc.text ≠ "" → HasText row) := by
  obtain ⟨part, hpart, hin⟩ := List.mem_flatten.1 hdoc
  obtain ⟨⟨k, row'⟩, hitem, hok⟩ := mapM_mem hparts part hpart
  obtain ⟨k', -, hk'⟩ := List.mem_filterMap.1 hitem
  obtain ⟨row'', hrow'', he'⟩ := Option.map_eq_some_iff.1 hk'
  cases he'
  have hindex := canonicalDocs_of hrow hrow'' hok hin he
  obtain ⟨scopes, hscopes, -, hfrom⟩ := indexCanonicalIdentity_scopes hindex
  obtain ⟨sc, hsc, docs, hdocs, hd⟩ := hfrom doc hin
  obtain ⟨aliases, haliases, -, -, hall⟩ := identityDocs_docs hdocs
  obtain ⟨-, -, hscope, htext⟩ := hall doc hd
  refine ⟨scopes, hscopes, sc, hsc, hscope, fun ht => ?_⟩
  rcases htext with hl | ⟨name, hname, htruthy, -⟩
  · exact .inl (hl ▸ ht)
  · exact .inr ⟨aliases, haliases, name, hname, htruthy⟩

/-- The row's documents are among those that are put. -/
theorem row_docs {listed : CurrentReducedState → List Key} {parts : List (List SearchDoc)}
    (hl : ∀ k, (s.rows k).isSome = true → k ∈ listed s) (hrow : s.rows (ref, canonicalIdentity) = some row)
    (hparts : (rowItems listed s).mapM (canonicalDocs s) = .ok parts) (ho : nonEmpty row.objectRef ≠ none) :
    ∃ docs, indexCanonicalIdentity ref row = .ok docs ∧ docs ⊆ parts.flatten := by
  have hitem : ((ref, canonicalIdentity), row) ∈ rowItems listed s :=
    List.mem_filterMap.2 ⟨_, hl _ (by rw [hrow]; rfl), by rw [hrow]; rfl⟩
  obtain ⟨docs, hdocs, hok⟩ := mapM_each hparts _ hitem
  exact ⟨docs, canonicalDocs_identity hok ho, fun doc hdoc => List.mem_flatten.2 ⟨docs, hdocs, hdoc⟩⟩

/-- A document of the row is left where none shares its ref. -/
theorem unshared_alone {listed : CurrentReducedState → List Key} {parts : List (List SearchDoc)} {docs : List SearchDoc}
    (hparts : (rowItems listed s).mapM (canonicalDocs s) = .ok parts) (hu : Unshared s ref row)
    (hindex : indexCanonicalIdentity ref row = .ok docs) {doc : SearchDoc} (hdoc : doc ∈ docs) :
    ∀ doc' ∈ parts.flatten, doc'.sameKey doc = true → doc' = doc := by
  intro doc' hdoc' hkey
  obtain ⟨part, hpart, hin⟩ := List.mem_flatten.1 hdoc'
  obtain ⟨⟨k, row'⟩, hitem, hok⟩ := mapM_mem hparts part hpart
  obtain ⟨k', -, hk'⟩ := List.mem_filterMap.1 hitem
  obtain ⟨row'', hrow'', he⟩ := Option.map_eq_some_iff.1 hk'
  cases he
  exact (hu docs hindex doc hdoc).2 k row' part hrow'' hok doc' hin (sameKey_iff.1 hkey).2

end

/-- The scopes of a row that is indexed: one at least where there is a label, and one for each source. -/
theorem Indexed.scopes {row : CurrentStateRow} {scopes : List Scope} (h : Indexed row)
    (hs : scopeCombos (recordedMemberships row) = .ok scopes) :
    (labelOf row ≠ "" → scopes ≠ []) ∧ ∀ source, Recorded row source → ∃ sc ∈ scopes, sc.sourceId = some source := by
  by_cases ht : correlatedTuples row = []
  · obtain ⟨hne, hsource⟩ := scopeCombos_legacy ht hs
    refine ⟨fun _ => hne, ?_⟩
    rintro source ⟨-, ⟨xs, hxs, x, hx, rfl⟩ | ⟨τ, hτ, -⟩⟩
    · exact hsource xs hxs x hx
    · rw [ht] at hτ
      cases hτ
  · rw [scopeCombos_tuples ht] at hs
    cases hs
    obtain ⟨hlabel, hsource⟩ := h.2 ht
    constructor
    · intro hl
      obtain ⟨τ, hτ, hsome⟩ := hlabel hl
      obtain ⟨sc, hsc⟩ := Option.isSome_iff_exists.1 hsome
      exact List.ne_nil_of_mem (List.mem_filterMap.2 ⟨τ, hτ, hsc⟩)
    · intro source hr
      obtain ⟨τ, hτ, hb⟩ := hsource source hr
      obtain ⟨sc, hsc, he⟩ := Option.bind_eq_some_iff.1 hb
      exact ⟨sc, List.mem_filterMap.2 ⟨τ, hτ, hsc⟩, he⟩

section
variable {listed : CurrentReducedState → List Key} {edgeCp : Option ProjectionCheckpoint} {d : Driver} {edges : EdgeTable}
  {t t' : DocTable} {ref : String} {row : CurrentStateRow}

/-- **What is left of a canonical keeps to its tuples, and is all there only where every source has a tuple.** -/
theorem ScopesKept.indexed (hrow : d.state.rows (ref, canonicalIdentity) = some row)
    (h : finalizeSearch listed edgeCp d edges t = .ok t') (hk : ScopesKept t' ref row) : Indexed row := by
  obtain ⟨parts, hparts, hleft, -⟩ := finalizeSearch_canonical h
  have from_scope : ∀ doc ∈ t', OfCanonical ref doc → HasText row ∧ (correlatedTuples row ≠ [] →
      ∃ τ ∈ correlatedTuples row, tupleScope τ = some doc.scope) := by
    rintro doc hdoc ⟨hkind, hent⟩
    obtain ⟨hin, htext⟩ := hleft doc hdoc hkind
    obtain ⟨scopes, hscopes, sc, hsc, hscope, hhas⟩ := left_from hrow hparts hin hent
    refine ⟨hhas htext, fun hne => ?_⟩
    rw [scopeCombos_tuples hne] at hscopes
    cases hscopes
    obtain ⟨τ, hτ, hsc⟩ := List.mem_filterMap.1 hsc
    exact ⟨τ, hτ, by rw [hsc, hscope, stored_tuple hsc]⟩
  refine ⟨fun source hr => ?_, fun hne => ⟨fun hl => ?_, fun source hr => ?_⟩⟩
  · obtain ⟨doc, hdoc, hof, -⟩ := hk.sources source hr
    exact (from_scope doc hdoc hof).1
  · obtain ⟨doc, hdoc, hof, -⟩ := hk.labelled hl
    obtain ⟨τ, hτ, hscope⟩ := (from_scope doc hdoc hof).2 hne
    exact ⟨τ, hτ, by rw [hscope]; rfl⟩
  · obtain ⟨doc, hdoc, hof, hsource⟩ := hk.sources source hr
    obtain ⟨τ, hτ, hscope⟩ := (from_scope doc hdoc hof).2 hne
    exact ⟨τ, hτ, by rw [hscope]; exact hsource⟩

theorem Indexed.kept (hn : ref ≠ "") (hl : ∀ k, (d.state.rows k).isSome = true → k ∈ listed d.state)
    (hrow : d.state.rows (ref, canonicalIdentity) = some row) (h : finalizeSearch listed edgeCp d edges t = .ok t')
    (hu : Unshared d.state ref row) (hi : Indexed row) : ScopesKept t' ref row := by
  obtain ⟨parts, hparts, hleft, hput⟩ := finalizeSearch_canonical h
  -- a document that is put stays: it has a ref, and none shares it
  have stays : ∀ docs sc part doc, indexCanonicalIdentity ref row = .ok docs → docs ⊆ parts.flatten →
      identityDocs ref row (parseMetadata row.objectRef) sc = .ok part → part ⊆ docs → doc ∈ part → doc.ref ≠ "" →
      doc.text ≠ "" → doc ∈ t' := by
    intro docs sc part doc hindex hsub hpart hsub' hdoc hr ht
    have hin := hsub' hdoc
    exact hput doc (hsub hin) hr ht (hu docs hindex doc hin).1 (unshared_alone hparts hu hindex hin)
  by_cases ho : nonEmpty row.objectRef = none
  · have hmeta := no_object ho
    have hlabel : labelOf row = "" := by rw [labelOf, hmeta]; rfl
    have hmem : recordedMemberships row = [] := by rw [recordedMemberships, hmeta]; rfl
    have htuples : correlatedTuples row = [] := by rw [correlatedTuples, hmem]; rfl
    refine ⟨fun hl => absurd hlabel hl, ?_, ?_⟩
    · rintro source ⟨-, ⟨xs, hxs, x, hx, -⟩ | ⟨τ, hτ, -⟩⟩
      · rw [hmem] at hxs
        cases hxs
        cases hx
      · rw [htuples] at hτ
        cases hτ
    · rintro doc - - source - ⟨τ, hτ, -⟩
      rw [htuples] at hτ
      cases hτ
  · obtain ⟨docs, hindex, hsub⟩ := row_docs hl hrow hparts ho
    obtain ⟨scopes, hscopes, hparts', -⟩ := indexCanonicalIdentity_scopes hindex
    obtain ⟨hsome, hsource⟩ := hi.scopes hscopes
    refine ⟨fun hlabel => ?_, fun source hr => ?_, ?_⟩
    · obtain ⟨sc, hsc⟩ := List.exists_mem_of_ne_nil scopes (hsome hlabel)
      obtain ⟨part, hpart, hsub'⟩ := hparts' sc hsc
      obtain ⟨_, -, ⟨doc, hdoc, htext, href⟩, -, hall⟩ := identityDocs_docs hpart
      refine ⟨doc, stays docs sc part doc hindex hsub hpart hsub' hdoc ?_ (htext ▸ hlabel), ⟨(hall doc hdoc).1, ?_⟩, htext⟩
      · exact href ▸ scopedRef_ne hn sc
      · rw [(hall doc hdoc).2.1, nonEmpty_some hn]
    · obtain ⟨sc, hsc, hs⟩ := hsource source hr
      obtain ⟨part, hpart, hsub'⟩ := hparts' sc hsc
      obtain ⟨aliases, haliases, ⟨doc, hdoc, htext, href⟩, hnames, hall⟩ := identityDocs_docs hpart
      have of_scope : ∀ doc ∈ part, OfCanonical ref doc ∧ doc.sourceId = some source := by
        intro doc hdoc
        obtain ⟨hkind, hent, hscope, -⟩ := hall doc hdoc
        refine ⟨⟨hkind, by rw [hent, nonEmpty_some hn]⟩, ?_⟩
        have hst : doc.sourceId = nonEmpty sc.sourceId := congrArg Scope.sourceId hscope
        rw [hst, hs, nonEmpty_some hr.1]
      rcases hi.1 source hr with hlabel | ⟨names, hnames', name, hname, htruthy⟩
      · refine ⟨doc, stays docs sc part doc hindex hsub hpart hsub' hdoc ?_ (htext ▸ hlabel), of_scope doc hdoc⟩
        exact href ▸ scopedRef_ne hn sc
      · rw [haliases] at hnames'
        cases hnames'
        obtain ⟨doc', hdoc', htext', href'⟩ := hnames name hname htruthy
        refine ⟨doc', stays docs sc part doc' hindex hsub hpart hsub' hdoc' ?_ (htext' ▸ pyStr_ne htruthy), of_scope doc' hdoc'⟩
        refine href' ▸ scopedRef_ne (fun he => ?_) sc
        have hl := congrArg String.toList he
        rw [String.toList_append, String.toList_append] at hl
        exact hn (String.toList_inj.1 (List.append_eq_nil_iff.1 (List.append_eq_nil_iff.1 hl).1).1)
    · rintro doc hdoc ⟨hkind, hent⟩ source - ⟨τ, hτ, -⟩
      obtain ⟨hin, -⟩ := hleft doc hdoc hkind
      obtain ⟨scopes', hscopes', sc, hsc, hscope, -⟩ := left_from hrow hparts hin hent
      rw [scopeCombos_tuples (List.ne_nil_of_mem hτ)] at hscopes'
      cases hscopes'
      obtain ⟨τ', hτ', hsc⟩ := List.mem_filterMap.1 hsc
      exact ⟨τ', hτ', by rw [hsc, hscope, stored_tuple hsc]⟩

/-- **Every search run leaves a canonical its label, its sources and no scope but those of its tuples only where every
source has a well-formed tuple, once there is a tuple, and does so there if no document shares a ref with it.** -/
theorem scopes_indexed {events : List SemanticEvent} (hr : replay events = .ok d.state)
    (hl : ∀ k, (d.state.rows k).isSome = true → k ∈ listed d.state)
    (hrow : d.state.rows (ref, canonicalIdentity) = some row) (h : finalizeSearch listed edgeCp d edges t = .ok t') :
    (ScopesKept t' ref row → Indexed row) ∧ (Unshared d.state ref row ∧ Indexed row → ScopesKept t' ref row) :=
  ⟨fun hk => hk.indexed hrow h, fun ⟨hu, hi⟩ => hi.kept (replay_named hr _ _ hrow) hl hrow h hu⟩

end

/-! ## A canonical that got its tuples late -/

/-- `c:1` is established from a source, with tuples or without. -/
def establishedIn (source : String) (tuples : List Json) (seq : Nat) : SemanticEvent where
  eventType := .EntityResolved
  payload :=
    [("kind", .str "ESTABLISH"), ("entity_id", .str "c:1"), ("display_label", .str "Holmes"),
      ("memberships", .obj [("source_ids", .arr [.str source])]), ("membership_tuples", .arr tuples)]
  authority := some "machine"
  seq := some seq

/-- First without tuples, then from another source with one. -/
def mixedHistory : List SemanticEvent :=
  [establishedIn "s:1" [] 1, establishedIn "s:2" [.arr [.str "s:2", .str "w:1", .null]] 2]

def mixedKeys : List Key := [("c:1", "CANONICAL_ENTITY"), ("c:1", canonicalIdentity)]

/-- The second event. -/
def lateTuple : SemanticEvent := establishedIn "s:2" [.arr [.str "s:2", .str "w:1", .null]] 2

/-- The metadata of `c:1` with its memberships. -/
def holmesMetadata (memberships : Dict) : Dict :=
  [("canonical_type", .null), ("display_label", .str "Holmes"), ("aliases", .arr []), ("support_refs", .arr []),
    ("memberships", .obj memberships), ("state", .str "CONFIRMED"), ("confidence", .null), ("classification", .null),
    ("generated_by", .obj []), ("created_by", .null), ("derived_from", .arr []), ("correspondence", .arr [])]

/-- The memberships after the first event, and after both. -/
def legacyMemberships : Dict := [("continuity_ids", .arr []), ("source_ids", .arr [.str "s:1"]), ("work_ids", .arr [])]

def mixedMemberships : Dict :=
  [("continuity_ids", .arr []), ("source_ids", .arr [.str "s:1", .str "s:2"]), ("tuples", .arr [.arr [.str "s:2", .str "w:1", .null]]),
    ("work_ids", .arr [])]

/-- The identity row after the first event. -/
def legacyRow : CurrentStateRow where
  entityRef := "c:1"
  predicate := canonicalIdentity
  objectRef := some (dumps (.obj (holmesMetadata legacyMemberships)))
  authority := .str "machine"
  state := .str "CONFIRMED"
  seq := 1

theorem holmes_parsed {memberships : Dict} {row : CurrentStateRow}
    (h : row.objectRef = some (dumps (.obj (holmesMetadata memberships)))) :
    row.objectRef.bind parseObject = some (readBack (holmesMetadata memberships)) := by
  have hkeys : (holmesMetadata memberships).keys.Nodup := by simp [holmesMetadata, Dict.keys]
  rw [h, Option.bind_some]
  unfold parseObject
  rw [loads_dumps, norm_obj hkeys]
  rfl

theorem legacy_memberships {row : CurrentStateRow} (h : row.objectRef = some (dumps (.obj (holmesMetadata legacyMemberships)))) :
    membershipsOf row = legacyMemberships := by
  unfold membershipsOf
  rw [holmes_parsed h]
  rfl

theorem mixed_memberships {row : CurrentStateRow} (h : row.objectRef = some (dumps (.obj (holmesMetadata mixedMemberships)))) :
    recordedMemberships row = mixedMemberships := by
  unfold recordedMemberships parseMetadata
  rw [holmes_parsed h]
  rfl

theorem mixed_docs {row : CurrentStateRow} (h : row.objectRef = some (dumps (.obj (holmesMetadata mixedMemberships)))) :
    ∃ docs, indexCanonicalIdentity "c:1" row = .ok docs := by
  unfold indexCanonicalIdentity parseMetadata
  rw [holmes_parsed h]
  exact ⟨_, rfl⟩

/-- The second event on the row of the first. -/
theorem mixed_row : ∃ row, reduceCanonicalIdentity legacyRow lateTuple = .ok row ∧
    row.objectRef = some (dumps (.obj (holmesMetadata mixedMemberships))) := by
  have hwinner : winnerMetadata legacyRow lateTuple =
      .ok (holmesMetadata mixedMemberships) := by
    unfold winnerMetadata
    rw [legacy_memberships rfl]
    rfl
  unfold reduceCanonicalIdentity
  rw [hwinner]
  exact ⟨_, rfl, rfl⟩

/-- The first source is recorded in the row the history leaves. -/
theorem mixed_replay : ∃ s row, replay mixedHistory = .ok s ∧ s.rows ("c:1", canonicalIdentity) = some row ∧
    row.objectRef = some (dumps (.obj (holmesMetadata mixedMemberships))) := by
  obtain ⟨row, hrow, href⟩ := mixed_row
  obtain ⟨s, hs, hlocks, hlegacy⟩ : ∃ s, reduce {} (establishedIn "s:1" [] 1) = .ok s ∧ s.locks "c:1" = false ∧
      s.rows ("c:1", canonicalIdentity) = some legacyRow := ⟨_, rfl, rfl, rfl⟩
  have hstep : ∃ s', reduce s lateTuple = .ok s' ∧ s'.rows ("c:1", canonicalIdentity) = some row := by
    have htarget : eventTarget lateTuple = some ("c:1", "CANONICAL_ENTITY") := by decide +kernel
    have hidentity : identityEventTarget lateTuple = some ("c:1", canonicalIdentity) := by decide +kernel
    have hseed : s.rowOrSeed ("c:1", canonicalIdentity) = legacyRow := by
      unfold CurrentReducedState.rowOrSeed
      rw [hlegacy]
      rfl
    have hkey : identityKey s lateTuple = some ("c:1", canonicalIdentity) := by simp [identityKey, hidentity, hlocks]
    have hchange : reduce s lateTuple = reduceChange s lateTuple ("c:1", "CANONICAL_ENTITY") := by
      unfold reduce
      rw [if_neg (by decide), htarget]
      exact if_neg (by decide)
    have hreduce : reduceChange s lateTuple ("c:1", "CANONICAL_ENTITY") =
        .ok { s with rows := upd (upd s.rows ("c:1", "CANONICAL_ENTITY")
          (some (reduceCurrentState (s.rowOrSeed ("c:1", "CANONICAL_ENTITY")) lateTuple))) ("c:1", canonicalIdentity) (some row) } := by
      unfold reduceChange
      rw [hlocks, hkey]
      dsimp only
      rw [hseed, hrow]
      rfl
    exact ⟨_, hchange.trans hreduce, by simp⟩
  obtain ⟨s', hs', hrow'⟩ := hstep
  refine ⟨s', row, ?_, hrow', href⟩
  unfold replay mixedHistory reduceAll
  rw [hs]
  show reduceAll s [lateTuple] = _
  rw [reduceAll, hs']
  rfl

/-- A search run over them, after which no document is of the first source. -/
theorem mixedRun_run : ∃ s row t, replay mixedHistory = .ok s ∧ (∀ k, (s.rows k).isSome = true → k ∈ mixedKeys) ∧
    s.rows ("c:1", canonicalIdentity) = some row ∧
    finalizeSearch (fun _ => mixedKeys) none { state := s } [] [] = .ok t ∧ Recorded row "s:1" ∧ ¬ Indexed row := by
  obtain ⟨s, row, hs, hrow, href⟩ := mixed_replay
  have hkeys : ∀ k, (s.rows k).isSome = true → k ∈ mixedKeys := by
    intro k hk
    by_contra hno
    have hwrites : ∀ ev ∈ mixedHistory, ∀ k ∈ writes ev, k ∈ mixedKeys := by decide +kernel
    rw [@reduceAll_none mixedHistory k (fun ev hev hw => hno (hwrites ev hev k hw)) {} s rfl hs] at hk
    cases hk
  have hdocs : ∃ parts, (rowItems (fun _ => mixedKeys) s).mapM (canonicalDocs s) = .ok parts := by
    refine mapM_succeeds fun item hitem => ?_
    obtain ⟨k, hk, hitem⟩ := List.mem_filterMap.1 hitem
    obtain ⟨r, hr, rfl⟩ := Option.map_eq_some_iff.1 hitem
    have hpredicate : ("CANONICAL_ENTITY" = canonicalIdentity) = False := eq_false (by decide)
    simp only [mixedKeys, List.mem_cons, List.not_mem_nil, or_false] at hk
    unfold canonicalDocs
    rcases hk with rfl | rfl
    · dsimp only
      cases nonEmpty r.objectRef with
      | none => exact ⟨[], rfl⟩
      | some object => exact ⟨[], by simp [hpredicate, hrow]⟩
    · obtain rfl : row = r := Option.some.inj (hrow.symm.trans hr)
      dsimp only
      cases nonEmpty row.objectRef with
      | none => exact ⟨[], rfl⟩
      | some object => exact mixed_docs href
  obtain ⟨parts, hparts⟩ := hdocs
  have hrecorded : Recorded row "s:1" :=
    ⟨by decide, .inl ⟨[.str "s:1", .str "s:2"], by rw [mixed_memberships href]; rfl, .str "s:1", List.mem_cons_self, rfl⟩⟩
  have hrun : ∃ t, finalizeSearch (fun _ => mixedKeys) none { state := s } [] [] = .ok t := by
    unfold finalizeSearch
    rw [hparts]
    exact ⟨_, rfl⟩
  obtain ⟨t, ht⟩ := hrun
  refine ⟨s, row, t, hs, hkeys, hrow, ht, hrecorded, fun hi => ?_⟩
  · have htuples : correlatedTuples row = [.arr [.str "s:2", .str "w:1", .null]] := by
      unfold correlatedTuples
      rw [mixed_memberships href]
      rfl
    obtain ⟨τ, hτ, hsource⟩ := (hi.2 (by simp [htuples])).2 "s:1" hrecorded
    rw [htuples, List.mem_singleton] at hτ
    subst hτ
    exact absurd hsource (by decide)

/-- The rule at that run. -/
theorem scopes_indexed_mixed : ∃ s row t, finalizeSearch (fun _ => mixedKeys) none { state := s } [] [] = .ok t ∧
    (ScopesKept t "c:1" row → Indexed row) ∧ (Unshared s "c:1" row ∧ Indexed row → ScopesKept t "c:1" row) := by
  obtain ⟨s, row, t, hs, hl, hrow, ht, -⟩ := mixedRun_run
  exact ⟨s, row, t, ht, @scopes_indexed (fun _ => mixedKeys) none { state := s } [] [] t "c:1" row mixedHistory hs hl hrow ht⟩

/-- The source recorded before there were tuples is not found. -/
theorem legacy_source_lost : ¬ ∀ (events : List SemanticEvent) (listed : CurrentReducedState → List Key) (d : Driver)
    (edges : EdgeTable) (t t' : DocTable) (ref : String) (row : CurrentStateRow), replay events = .ok d.state →
    (∀ k, (d.state.rows k).isSome = true → k ∈ listed d.state) → d.state.rows (ref, canonicalIdentity) = some row →
    finalizeSearch listed none d edges t = .ok t' → ScopesKept t' ref row := by
  intro hall
  obtain ⟨s, row, t, hs, hl, hrow, ht, -, hno⟩ := mixedRun_run
  have hk := hall mixedHistory (fun _ => mixedKeys) { state := s } [] [] t "c:1" row hs hl hrow ht
  exact hno (hk.indexed (d := { state := s }) hrow ht)

end Umd.Projections
