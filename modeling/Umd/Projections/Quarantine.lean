import Umd.Lib.Python
import Umd.Projections.Pass
import Umd.Storage.Tidy
/-!
# Quarantined mentions

Over every log and every quarantine: what a run that rebuilds the search store
leaves of the mentions that reference a quarantined ref. A run that may pause
skips them; a forced resume, which the stage's pass always asks for, applies
them (`noise_hidden_iff`).
-/

namespace Umd.Projections

open Umd.Lib Umd.Events Umd.Reducer Umd.Ledger

/-! ## The documents of mentions -/

/-- A document is put by its kind and ref; one without ref or text is not put. -/
theorem mem_upsert {t : DocTable} {doc doc' : SearchDoc} : doc' ∈ t.upsert doc ↔
    if doc.ref = "" ∨ doc.text = "" then doc' ∈ t else doc' = doc ∨ (doc' ∈ t ∧ doc'.sameKey doc = false) := by
  unfold DocTable.upsert
  split
  · rfl
  · split
    · rename_i hany
      rw [List.mem_map]
      constructor
      · rintro ⟨r, hr, rfl⟩
        split
        · exact .inl rfl
        · rename_i hkey
          exact .inr ⟨hr, Bool.eq_false_iff.2 hkey⟩
      · rintro (rfl | ⟨hm, hkey⟩)
        · obtain ⟨r, hr, hs⟩ := List.any_eq_true.1 hany
          exact ⟨r, hr, if_pos hs⟩
        · exact ⟨doc', hm, by simp [hkey]⟩
    · rename_i hany
      rw [List.mem_append, List.mem_singleton]
      constructor
      · rintro (hm | rfl)
        · exact .inr ⟨hm, by simpa using fun hs => hany (List.any_eq_true.2 ⟨doc', hm, hs⟩)⟩
        · exact .inl rfl
      · rintro (rfl | ⟨hm, -⟩)
        · exact .inr rfl
        · exact .inl hm

/-- Documents of one kind are left by puts of other kinds. -/
theorem mem_foldl_upsert {ds : List SearchDoc} {kind : ResultKind} (hds : ∀ doc ∈ ds, doc.kind ≠ kind) :
    ∀ {t : DocTable} {doc : SearchDoc}, doc.kind = kind → (doc ∈ ds.foldl DocTable.upsert t ↔ doc ∈ t) := by
  induction ds with
  | nil => exact fun _ => .rfl
  | cons d ds ih =>
    intro t doc hk
    have hne : doc.kind ≠ d.kind := fun he => hds d (by simp) (he ▸ hk)
    have hkey : doc.sameKey d = false := by simp [SearchDoc.sameKey, hne]
    have hdoc : doc ≠ d := fun he => hne (congrArg SearchDoc.kind he)
    rw [List.foldl_cons, ih (fun doc hd => hds doc (List.mem_cons_of_mem _ hd)) hk, mem_upsert]
    split
    · rfl
    · simp [hkey, hdoc]

/-- The mention is indexed. -/
def indexable (row : EventRow) : Bool :=
  (upcast row).eventType = .EntityMentioned && (mentionDoc (upcast row)).ref ≠ "" && (mentionDoc (upcast row)).text ≠ ""

theorem mention_sameKey (ev ev' : SemanticEvent) :
    (mentionDoc ev).sameKey (mentionDoc ev') = decide ((mentionDoc ev).ref = (mentionDoc ev').ref) := by
  have hkind : (mentionDoc ev).kind = (mentionDoc ev').kind := rfl
  simp [SearchDoc.sameKey, hkind]

theorem mem_applySearch {row : EventRow} {t : DocTable} {doc : SearchDoc} : doc ∈ applySearch (upcast row) t ↔
    if indexable row then doc = mentionDoc (upcast row) ∨ (doc ∈ t ∧ doc.sameKey (mentionDoc (upcast row)) = false)
    else doc ∈ t := by
  unfold applySearch indexable
  by_cases he : (upcast row).eventType = .EntityMentioned
  · rw [if_pos he, mem_upsert]
    by_cases hr : (mentionDoc (upcast row)).ref = ""
    · simp [hr]
    · by_cases ht : (mentionDoc (upcast row)).text = ""
      · simp [ht]
      · simp [he, hr, ht]
  · simp [he]

/-- The document of a row is there if no later row puts another one under its ref. -/
theorem mem_applyAll {rows : List EventRow} {doc : SearchDoc} : doc ∈ applyAll rows [] ↔
    ∃ pre row post, rows = pre ++ row :: post ∧ indexable row = true ∧ doc = mentionDoc (upcast row) ∧
      ∀ r ∈ post, indexable r = true → (mentionDoc (upcast r)).ref ≠ doc.ref := by
  induction rows using List.reverseRecOn with
  | nil => simp [applyAll]
  | append_singleton rows last ih =>
    rw [applyAll_append]
    change doc ∈ applySearch (upcast last) (applyAll rows []) ↔ _
    rw [mem_applySearch]
    constructor
    · intro h
      split at h
      · rename_i hi
        rcases h with rfl | ⟨hm, hkey⟩
        · exact ⟨rows, last, [], rfl, hi, rfl, by simp⟩
        · obtain ⟨pre, row, post, rfl, hrow, rfl, hpost⟩ := ih.1 hm
          refine ⟨pre, row, post ++ [last], by simp, hrow, rfl, fun r hr hir => ?_⟩
          rcases List.mem_append.1 hr with hr | hr
          · exact hpost r hr hir
          · rw [List.mem_singleton.1 hr]
            rw [mention_sameKey, decide_eq_false_iff_not] at hkey
            exact fun he => hkey he.symm
      · rename_i hi
        obtain ⟨pre, row, post, rfl, hrow, hdoc, hpost⟩ := ih.1 h
        refine ⟨pre, row, post ++ [last], by simp, hrow, hdoc, fun r hr hir => ?_⟩
        rcases List.mem_append.1 hr with hr | hr
        · exact hpost r hr hir
        · rw [List.mem_singleton.1 hr] at hir
          exact absurd hir hi
    · rintro ⟨pre, row, post, heq, hrow, rfl, hpost⟩
      rcases List.eq_nil_or_concat post with rfl | ⟨post', last', rfl⟩
      · obtain ⟨rfl, hl⟩ := List.append_inj' heq rfl
        cases hl
        rw [if_pos hrow]
        exact .inl rfl
      · rw [List.concat_eq_append, ← List.cons_append, ← List.append_assoc] at heq
        obtain ⟨rfl, hl⟩ := List.append_inj' heq rfl
        cases hl
        have hm : mentionDoc (upcast row) ∈ applyAll (pre ++ row :: post') [] :=
          ih.2 ⟨pre, row, post', rfl, hrow, rfl, fun r hr => hpost r (by simp [hr])⟩
        split
        · rename_i hi
          have hne := hpost last (by simp) hi
          exact .inr ⟨hm, by rw [mention_sameKey, decide_eq_false_iff_not]; exact fun he => hne he.symm⟩
        · exact hm

/-! ## The end of a run leaves the mentions -/

theorem identityDocs_kind {ref : String} {row : CurrentStateRow} {metadata : Dict} {scope : Scope} {docs : List SearchDoc}
    (h : identityDocs ref row metadata scope = .ok docs) : ∀ doc ∈ docs, doc.kind = .canonicalEntity := by
  unfold identityDocs at h
  cases ha : pyList (metadata.get "aliases") with
  | error e => rw [ha] at h; cases h
  | ok aliases =>
    rw [ha] at h
    cases h
    intro doc hdoc
    rcases List.mem_cons.1 hdoc with rfl | hdoc
    · rfl
    · obtain ⟨name, -, rfl⟩ := List.mem_map.1 hdoc
      rfl

theorem canonicalDocs_kind {s : CurrentReducedState} {item : Key × CurrentStateRow} {docs : List SearchDoc}
    (h : canonicalDocs s item = .ok docs) : ∀ doc ∈ docs, doc.kind = .canonicalEntity := by
  obtain ⟨⟨ref, predicate⟩, row⟩ := item
  unfold canonicalDocs at h
  dsimp only at h
  split at h
  · cases h
    simp
  · split at h
    · unfold indexCanonicalIdentity at h
      dsimp only at h
      cases hs : scopeCombos (scopeMemberships (parseMetadata row.objectRef)) with
      | error e => rw [hs] at h; cases h
      | ok scopes =>
        rw [hs] at h
        simp only [bind, Except.bind] at h
        cases hm : scopes.mapM (identityDocs ref row (parseMetadata row.objectRef)) with
        | error e => rw [hm] at h; cases h
        | ok parts =>
          rw [hm] at h
          cases h
          intro doc hdoc
          obtain ⟨part, hpart, hdoc⟩ := List.mem_flatten.1 hdoc
          obtain ⟨scope, -, hscope⟩ := mapM_mem hm part hpart
          exact identityDocs_kind hscope doc hdoc
    · split at h
      · cases h
        simp
      · cases h
        simp

section
variable {listed : CurrentReducedState → List Key} {schema : String} {edgeCp : Option ProjectionCheckpoint}

/-- The mentions a run ends with are those it applied, but for refs of the edge documents. -/
theorem finalizeSearch_mentions {d : Driver} {edges : EdgeTable} {t t' : DocTable}
    (h : finalizeSearch listed edgeCp d edges t = .ok t') {doc : SearchDoc} (hk : doc.kind = .sourceEvidence) :
    doc ∈ t' ↔ doc ∈ t ∧ isEdgeRef doc.ref = false := by
  rw [finalizeSearch_eq] at h
  unfold baseDocs at h
  cases hm : (rowItems listed d.state).mapM (canonicalDocs d.state) with
  | error e => rw [hm] at h; cases h
  | ok parts =>
    rw [hm] at h
    simp only [bind, Except.bind, pure, Except.pure] at h
    split at h
    · cases h
    · cases h
      have hedge : ∀ doc ∈ activeDocs edges, doc.kind ≠ .sourceEvidence := by
        intro doc hdoc
        obtain ⟨r, -, rfl⟩ := List.mem_map.1 hdoc
        exact nofun
      have hcanon : ∀ doc ∈ parts.flatten, doc.kind ≠ .sourceEvidence := by
        intro doc hdoc
        obtain ⟨part, hpart, hdoc⟩ := List.mem_flatten.1 hdoc
        obtain ⟨item, -, hitem⟩ := mapM_mem hm part hpart
        rw [canonicalDocs_kind hitem doc hdoc]
        exact nofun
      rw [mem_foldl_upsert hedge hk, List.mem_filter, mem_foldl_upsert hcanon hk, List.mem_filter]
      simp [hk]

end

/-! ## Runs that rebuild the store -/

/-- A run that rebuilds the search documents of a schema, forced or not: its driver before and the database after. A
wiping run of a paused projection rebuilds nothing. -/
inductive Rebuilds (listed : CurrentReducedState → List Key) (schema : String) : Bool → Driver → Projected Stores → Prop
  | run {wipe forceResume : Bool} {db db' : Projected Stores} {d d' : Driver} {report : BuildReport}
      (fresh : (wipe || forceResume) = true)
      (started : forceResume = true ∨ ((db.checkpoints searchProjection).getD {}).pauseReason = none)
      (h : runLocked (searchBuilder listed schema (db.checkpoints edgeProjection)) wipe forceResume db d = (db', d', .ok report)) :
      Rebuilds listed schema forceResume d db'
  | pass {others : Nat → Nat → Projected Stores → Projected Stores} {db db' : Projected Stores} {d d' : Driver}
      {reports : List BuildReport} (inPublic : schema = publicSchema)
      (h : projectionPass listed maxPassAttempts others db d = (db', d', .ok reports)) : Rebuilds listed schema true d db'

/-- A mention without authority that references a quarantined ref. -/
def noise (quarantined : List String) (row : EventRow) : Bool :=
  (upcast row).eventType = .EntityMentioned && !isAuthorityPause (upcast row) && referencesQuarantine (upcast row) quarantined

/-- No document of a mention stems from noise. -/
def NoiseHidden (db : Projected Stores) (schema : String) : Prop :=
  ∀ doc ∈ db.stores.docs schema, doc.kind = .sourceEvidence → ∀ row ∈ db.events, noise db.quarantined row = true →
    doc.seq ≠ row.seq

/-- A mention that is applied leaves a document: it has a ref and a text, its ref is none of the edge documents, and no
later mention that is indexed has its ref. -/
def Shown (rows : List EventRow) (row : EventRow) : Prop :=
  indexable row = true ∧ isEdgeRef (mentionDoc (upcast row)).ref = false ∧
    ∀ r ∈ rows, row.seq < r.seq → indexable r = true → (mentionDoc (upcast r)).ref ≠ (mentionDoc (upcast row)).ref

section
variable {listed : CurrentReducedState → List Key} {schema : String}

/-- What a rebuilding run leaves of the mentions. -/
theorem Rebuilds.mentions {forced : Bool} {d : Driver} {db : Projected Stores} (h : Rebuilds listed schema forced d db)
    {doc : SearchDoc} (hk : doc.kind = .sourceEvidence) : ∃ poison, (poison = true ↔ d.pausePolicy = true ∧ forced = false) ∧
      (doc ∈ db.stores.docs schema ↔
        doc ∈ applyAll (taken db.quarantined poison 0 (loadEvents db.events 0)) [] ∧ isEdgeRef doc.ref = false) := by
  have hrun : ∀ {wipe forceResume : Bool} {db db' : Projected Stores} {d d' : Driver} {report : BuildReport},
      (wipe || forceResume) = true → (forceResume = true ∨ ((db.checkpoints searchProjection).getD {}).pauseReason = none) →
      runLocked (searchBuilder listed schema (db.checkpoints edgeProjection)) wipe forceResume db d = (db', d', .ok report) →
      (doc ∈ db'.stores.docs schema ↔
        doc ∈ applyAll (taken db'.quarantined (mayPause forceResume d) 0 (loadEvents db'.events 0)) [] ∧
          isEdgeRef doc.ref = false) := by
    intro wipe forceResume db db' d d' report hfresh hstart hr
    obtain ⟨hev, hq, cp, t, docs, hreplayed, hfin, hstores, -⟩ := runLocked_search hstart hr
    have hzero : startSeq searchProjection wipe forceResume db = 0 := if_pos (by simpa using hfresh)
    have ht := congrArg (·.docs schema) hreplayed.stores
    simp only [Stores.setDocs_docs, hzero, hfresh] at ht
    rw [hstores, Stores.setDocs_docs, hev, hq, finalizeSearch_mentions hfin hk, ht]
    rfl
  cases h with
  | @run wipe forceResume db₀ _ _ d' report fresh started h =>
    exact ⟨mayPause forced d, by simp [mayPause], hrun fresh started h⟩
  | pass inPublic h =>
    obtain ⟨db₀, d₀, report, hr⟩ := projectionPass_search h
    subst inPublic
    have hno : mayPause true d₀ = false := by simp [mayPause]
    have hmem := hrun rfl (.inl rfl) hr
    rw [hno] at hmem
    exact ⟨false, by simp, hmem⟩

/-- The events of a log in order. -/
theorem later_of_split {rows pre post : List EventRow} {row : EventRow} (ho : (rows.map (·.seq)).Pairwise (· < ·))
    (hsplit : rows = pre ++ row :: post) {r : EventRow} (hr : r ∈ rows) : r ∈ post ↔ row.seq < r.seq := by
  subst hsplit
  rw [List.map_append, List.map_cons, List.pairwise_append, List.pairwise_cons] at ho
  obtain ⟨-, ⟨hpost, -⟩, hpre⟩ := ho
  constructor
  · exact fun h => hpost _ (List.mem_map_of_mem h)
  · intro hlt
    rcases List.mem_append.1 hr with h | h
    · have := hpre _ (List.mem_map_of_mem h) row.seq (by simp)
      omega
    · rcases List.mem_cons.1 h with rfl | h
      · exact absurd hlt (Nat.lt_irrefl _)
      · exact h

theorem seq_inj {rows : List EventRow} (ho : (rows.map (·.seq)).Pairwise (· < ·)) {r r' : EventRow} (hr : r ∈ rows)
    (hr' : r' ∈ rows) (h : r.seq = r'.seq) : r = r' := by
  obtain ⟨pre, post, rfl⟩ := List.append_of_mem hr
  rw [List.map_append, List.map_cons, List.pairwise_append, List.pairwise_cons] at ho
  obtain ⟨-, ⟨hpost, -⟩, hpre⟩ := ho
  rcases List.mem_append.1 hr' with h' | h'
  · have := hpre _ (List.mem_map_of_mem h') r.seq (by simp)
    omega
  · rcases List.mem_cons.1 h' with rfl | h'
    · rfl
    · have := hpost _ (List.mem_map_of_mem h')
      omega

/-- With poison disabled a run takes the whole log. -/
theorem taken_all {rows : List EventRow} (hp : ∀ r ∈ rows, 0 < r.seq) (quarantined : List String) :
    taken quarantined false 0 rows = rows := by
  unfold taken
  have hpass : rows.takeWhile (fun row => !pausesAt false 0 row) = rows := by simp [pausesAt]
  rw [hpass, List.filter_eq_self]
  exact fun r hr => by simp [takes, hp r hr]

/-- A run that rebuilds the search store leaves no document of noise if and only if it may skip, or no noise would be
shown. -/
theorem noise_hidden_iff {ledger : Db} (hlog : Run appendStep Any {} ledger) {forced : Bool} {d : Driver} {db : Projected Stores}
    (hevents : db.events = ledger.events) (h : Rebuilds listed schema forced d db) :
    NoiseHidden db schema ↔ (d.pausePolicy = true ∧ forced = false) ∨
      ∀ row ∈ db.events, noise db.quarantined row = true → ¬ Shown db.events row := by
  have hstored := (tidy_run hlog).stored
  have hord : (db.events.map (·.seq)).Pairwise (· < ·) := by rw [hevents]; exact hstored.ordered
  have hpos : ∀ r ∈ db.events, 0 < r.seq := by rw [hevents]; exact hstored.positive
  have hload : loadEvents db.events 0 = db.events := loadEvents_ordered hord hpos
  by_cases hpoison : d.pausePolicy = true ∧ forced = false
  · refine iff_of_true ?_ (.inl hpoison)
    intro doc hdoc hk row hrow hnoise hseq
    obtain ⟨poison, hiff, hmem⟩ := h.mentions hk
    rw [hiff.2 hpoison, hload] at hmem
    obtain ⟨pre, row', post, hsplit, -, rfl, -⟩ := mem_applyAll.1 (hmem.1 hdoc).1
    -- the row the document comes from was taken, so it references nothing quarantined
    have htaken : row' ∈ taken db.quarantined true 0 db.events := by rw [hsplit]; simp
    obtain ⟨hpass, htakes⟩ := List.mem_filter.1 htaken
    have hrow' : row' ∈ db.events := (List.takeWhile_sublist _).mem hpass
    have hsame : row' = row := seq_inj hord hrow' hrow hseq
    subst hsame
    simp only [noise, Bool.and_eq_true] at hnoise
    simp [takes, hnoise.2] at htakes
  · -- the whole log is applied
    have hdocs : ∀ doc : SearchDoc, doc.kind = .sourceEvidence →
        (doc ∈ db.stores.docs schema ↔ doc ∈ applyAll db.events [] ∧ isEdgeRef doc.ref = false) := by
      intro doc hk
      obtain ⟨poison, hiff, hmem⟩ := h.mentions hk
      have hoff : poison = false := by
        rw [Bool.eq_false_iff]
        exact fun hp => hpoison (hiff.1 hp)
      rw [hoff, hload, taken_all hpos] at hmem
      exact hmem
    constructor
    · intro hhidden
      refine .inr fun row hrow hnoise hshown => ?_
      obtain ⟨hidx, hedge, hlast⟩ := hshown
      obtain ⟨pre, post, hsplit⟩ := List.append_of_mem hrow
      have hmem : mentionDoc (upcast row) ∈ applyAll db.events [] := by
        refine mem_applyAll.2 ⟨pre, row, post, hsplit, hidx, rfl, fun r hr hir => ?_⟩
        have hr' : r ∈ db.events := by rw [hsplit]; simp [hr]
        exact hlast r hr' ((later_of_split hord hsplit hr').1 hr) hir
      exact hhidden _ ((hdocs _ rfl).2 ⟨hmem, hedge⟩) rfl row hrow hnoise rfl
    · rintro (hp | hnone)
      · exact absurd hp hpoison
      · intro doc hdoc hk row hrow hnoise hseq
        obtain ⟨hmem, hedge⟩ := (hdocs doc hk).1 hdoc
        obtain ⟨pre, row', post, hsplit, hidx, rfl, hlast⟩ := mem_applyAll.1 hmem
        have hrow' : row' ∈ db.events := by rw [hsplit]; simp
        have hsame : row' = row := seq_inj hord hrow' hrow hseq
        subst hsame
        exact hnone row' hrow hnoise ⟨hidx, hedge, fun r hr hlt hir =>
          hlast r ((later_of_split hord hsplit hr).2 hlt) hir⟩

end

/-- No key, which is what the state of mentions alone has. -/
def noKeys (_ : CurrentReducedState) : List Key := []

/-- A mention of a quarantined source. -/
def quarantinedMention : Projected Stores where
  events := (append {} (one .EntityMentioned [("mention_id", .str "m"), ("mention_text", .str "x"), ("source_id", .str "s")])).1.events
  quarantined := ["s"]
  stores := {}


/-- A wiping run skips it. -/
theorem noise_hidden_skipped : NoiseHidden (runLocked (searchBuilder noKeys publicSchema none) true false quarantinedMention {}).1
    publicSchema := by
  have hrun : Rebuilds noKeys publicSchema false {}
      (runLocked (searchBuilder noKeys publicSchema none) true false quarantinedMention {}).1 :=
    @Rebuilds.run _ _ true false quarantinedMention _ _ _ _ rfl (.inr rfl) rfl
  exact (noise_hidden_iff (.step .refl trivial rfl) (by rfl) hrun).2 (.inl ⟨rfl, rfl⟩)

/-- The stage's pass indexes it. -/
theorem noise_shown_by_pass : ¬ ∀ (listed : CurrentReducedState → List Key) (schema : String) (ledger : Db) (forced : Bool)
    (d : Driver) (db : Projected Stores), Run appendStep Any {} ledger → db.events = ledger.events →
    Rebuilds listed schema forced d db → NoiseHidden db schema := by
  intro h
  have hpass : Rebuilds noKeys publicSchema true {}
      (projectionPass noKeys maxPassAttempts (fun _ _ db => db) quarantinedMention {}).1 :=
    @Rebuilds.pass _ _ (fun _ _ db => db) quarantinedMention _ _ _ _ rfl rfl
  have hhidden := h noKeys publicSchema _ true {} _ (.step .refl trivial rfl) (by rfl) hpass
  exact hhidden _ (List.mem_singleton.2 rfl) rfl _ (List.mem_singleton.2 rfl) (by decide) rfl

end Umd.Projections
