import Umd.Lib.Python
import Umd.Lib.Uuid
import Umd.Projections.Search
/-!
# Hybrid search

`SearchService.hybrid` over a store of search documents: the exact page is taken with
the filters, the answer of the vector index is not. Its refs are looked up in the
store as they are, and both are fused by ref, although two documents of different
kinds may share one.
-/

namespace Umd.Projections

open Umd.Lib

/-- A row of `search_document`, as a reader sees it. -/
structure StoredDoc where
  ref : String
  kind : String
  text : String
  language : Option String := none
  sourceId : Option String := none
  workId : Option String := none
  continuityId : Option String := none
  segmentId : Option String := none
  entityRef : Option String := none
  locator : Option String := none
deriving DecidableEq

/-- The table `search_document`, under `uq_search_document_kind_ref`. -/
structure DocStore where
  rows : List StoredDoc
  unique : (rows.map fun d => (d.kind, d.ref)).Nodup

theorem DocStore.eq_of_key (s : DocStore) {d d' : StoredDoc} (hd : d ∈ s.rows) (hd' : d' ∈ s.rows)
    (hk : d.kind = d'.kind) (hr : d.ref = d'.ref) : d = d' :=
  List.inj_on_of_nodup_map s.unique hd hd' (Prod.ext hk hr)

/-! ## What the builder stores -/

/-- `RESULT_KIND_SOURCE_EVIDENCE`, `RESULT_KIND_INTERPRETATION` and `RESULT_KIND_CANONICAL_ENTITY`. -/
def ResultKind.value : ResultKind → String
  | .sourceEvidence => "SOURCE_EVIDENCE"
  | .interpretation => "INTERPRETATION"
  | .canonicalEntity => "CANONICAL_ENTITY"

/-- The builder writes no language and no locator. -/
def SearchDoc.stored (doc : SearchDoc) : StoredDoc where
  ref := doc.ref
  kind := doc.kind.value
  text := doc.text
  sourceId := doc.sourceId
  workId := doc.workId
  continuityId := doc.continuityId
  segmentId := doc.segmentId
  entityRef := doc.entityRef

/-- Each kind and ref once. -/
def DocTable.Unique (t : DocTable) : Prop := (t.map fun doc => (doc.kind, doc.ref)).Nodup

theorem upsert_unique {t : DocTable} (h : t.Unique) (doc : SearchDoc) : (t.upsert doc).Unique := by
  have same : ∀ r : SearchDoc, r.sameKey doc = true ↔ (r.kind, r.ref) = (doc.kind, doc.ref) := by
    intro r
    simp [SearchDoc.sameKey]
  unfold DocTable.upsert
  split
  · exact h
  · split
    · have hkeys : (t.map fun r => if r.sameKey doc then doc else r).map (fun d => (d.kind, d.ref)) =
          t.map fun d => (d.kind, d.ref) := by
        rw [List.map_map]
        refine List.map_congr_left fun r _ => ?_
        by_cases hr : r.sameKey doc = true
        · simp only [Function.comp_apply, if_pos hr, (same r).1 hr]
        · simp only [Function.comp_apply, if_neg hr]
      rw [DocTable.Unique, hkeys]
      exact h
    · rename_i hnone
      rw [DocTable.Unique, List.map_append]
      refine List.nodup_append.2 ⟨h, List.nodup_singleton _, ?_⟩
      rintro _ hk _ hd rfl
      obtain ⟨r, hr, hrk⟩ := List.mem_map.1 hk
      rw [List.map_singleton, List.mem_singleton] at hd
      exact hnone (List.any_eq_true.2 ⟨r, hr, (same r).2 (hrk.trans hd)⟩)

/-- A reader's store of a table the builder wrote. -/
def DocTable.store (t : DocTable) (h : t.Unique) : DocStore where
  rows := t.map SearchDoc.stored
  unique := by
    have hinj : Function.Injective ResultKind.value := by
      intro k k' hk
      cases k <;> cases k' <;> first | rfl | (revert hk; decide)
    have hmap : (t.map SearchDoc.stored).map (fun d => (d.kind, d.ref)) =
        (t.map fun doc => (doc.kind, doc.ref)).map (Prod.map ResultKind.value id) := by
      rw [List.map_map, List.map_map]
      rfl
    rw [hmap]
    exact h.map (hinj.prodMap Function.injective_id)

/-! ## Filters -/

/-- `SearchFilters` -/
structure SearchFilters where
  sourceId : Option String := none
  workId : Option String := none
  continuityId : Option String := none
  segmentId : Option String := none
  entityRef : Option String := none
  kind : Option String := none
  language : Option String := none
  locatorPrefix : Option String := none

/-- `dashed_uuid` -/
def dashedUuid (value : Option String) : Option String :=
  value.map fun v =>
    match pyUuid (strip v) with
    | some u => u.dashed
    | none => strip v

/-- SQL's `LIKE`, with the backslash as its escape. -/
def likeMatch : List Char → List Char → Bool
  | [], s => s.isEmpty
  | '%' :: p, s => s.tails.any (likeMatch p)
  | '_' :: p, s =>
    match s with
    | [] => false
    | _ :: s => likeMatch p s
  | '\\' :: c :: p, s =>
    match s with
    | [] => false
    | x :: s => c = x && likeMatch p s
  | c :: p, s =>
    match s with
    | [] => false
    | x :: s => c = x && likeMatch p s

/-- `column.like(pattern)`, not true of a `NULL`. -/
def like (column : Option String) (pattern : String) : Bool := column.any fun text => likeMatch pattern.toList text.toList

/-- A condition, where the filter holds a text. -/
def condition (value : Option String) (holds : String → StoredDoc → Bool) : List (StoredDoc → Bool) :=
  match nonEmpty value with
  | some v => [holds v]
  | none => []

/-- `_apply_filters` -/
def applyFilters : Option SearchFilters → List (StoredDoc → Bool)
  | none => []
  | some f =>
    condition (dashedUuid f.sourceId) (fun v d => d.sourceId = some v) ++
      condition (dashedUuid f.workId) (fun v d => d.workId = some v) ++
      condition (dashedUuid f.continuityId) (fun v d => d.continuityId = some v) ++
      condition f.segmentId (fun v d => d.segmentId = some v) ++ condition f.entityRef (fun v d => d.entityRef = some v) ++
      condition f.kind (fun v d => d.kind = v) ++ condition f.language (fun v d => d.language = some v) ++
      condition f.locatorPrefix fun v d => like d.locator (v ++ "%")

/-- The document satisfies all the filters. -/
def StoredDoc.passes (filters : Option SearchFilters) (d : StoredDoc) : Bool := (applyFilters filters).all (· d)

/-! ## The exact page -/

/-- PostgreSQL's text search: the match, the rank and the order of refs under the collation. -/
structure TextSearch where
  tsMatch : String → StoredDoc → Bool
  tsRank : String → StoredDoc → ℚ
  refLe : String → String → Bool

/-- `KindTaggedSearchHit` -/
structure KindTaggedSearchHit where
  ref : String
  kind : String
  text : String
  sourceId : Option String
  segmentId : Option String
  entityRef : Option String
  score : ℚ
  exactScore : Option ℚ
  vectorScore : Option ℚ
  label : String
deriving DecidableEq

/-- `KindTaggedSearchPage` -/
structure KindTaggedSearchPage where
  engine : String
  vectorBackend : String
  hits : List KindTaggedSearchHit
  total : ℕ
  limit : ℕ
  offset : ℕ
  query : String

/-- `_KIND_LABEL.get(kind, kind)` -/
def kindLabel (kind : String) : String :=
  if kind = "SOURCE_EVIDENCE" then "source evidence"
  else if kind = "INTERPRETATION" then "interpretation"
  else if kind = "CANONICAL_ENTITY" then "canonical entity"
  else kind

/-- The hit of a row: of `_rows_to_hits` with its score, of `_by_refs` with none. -/
def StoredDoc.hit (d : StoredDoc) (score : Option ℚ) : KindTaggedSearchHit where
  ref := d.ref
  kind := d.kind
  text := d.text
  sourceId := d.sourceId
  segmentId := d.segmentId
  entityRef := d.entityRef
  score := score.getD 0
  exactScore := score
  vectorScore := none
  label := kindLabel d.kind

/-- `VectorIndex`, and whether it is a `PgHNSWIndex`; either method may raise. -/
structure VectorIndex (V : Type) where
  isHNSW : Bool
  active : Except PyError Bool
  search : V → ℕ → Except PyError (List (String × ℚ))

/-- `SearchService`: the store it reads, the text search of its engine and the embedder. -/
structure SearchService (V : Type) where
  store : DocStore
  text : TextSearch
  embedText : String → V

namespace SearchService

variable {V : Type} (svc : SearchService V)

/-- The rows of the statement, before its window. -/
def exactRows (query : String) (filters : Option SearchFilters) : List StoredDoc :=
  (svc.store.rows.filter fun d => svc.text.tsMatch query d && d.passes filters).insertionSort fun d d' =>
    svc.text.tsRank query d' < svc.text.tsRank query d ∨
      (svc.text.tsRank query d = svc.text.tsRank query d' ∧ svc.text.refLe d.ref d'.ref = true)

/-- `exact` -/
def exact (query : String) (filters : Option SearchFilters) (limit offset : ℕ) : KindTaggedSearchPage where
  engine := "exact"
  vectorBackend := "unavailable"
  hits := (((svc.exactRows query filters).drop offset).take limit).map fun d => d.hit (some (svc.text.tsRank query d))
  total := (svc.exactRows query filters).length
  limit := limit
  offset := offset
  query := query

/-! ## The vector answer -/

/-- The backend that is named and the answer that is kept: an index that is not active is asked all the same. -/
def vectorAnswer (query : String) (topK : ℕ) : Option (VectorIndex V) → String × List (String × ℚ)
  | none => ("unavailable", [])
  | some index =>
    match index.active with
    | .error _ => ("unavailable", [])
    | .ok active =>
      match index.search (svc.embedText query) topK with
      | .error _ => ("unavailable", [])
      | .ok answer => (if active && index.isHNSW then "pgvector-hnsw-active" else "exact-fallback-active", answer)

/-- `_by_refs` -/
def byRefs (refs : List String) : List KindTaggedSearchHit :=
  (svc.store.rows.filter fun d => refs.contains d.ref).map fun d => d.hit none

/-! ## Fusion -/

/-- `_norm` -/
def norm (score : ℚ) : ℚ := if score ≤ 0 then 0 else min 1 score

/-- `_fuse` -/
def fuse (exact vector : Option ℚ) (weight : ℚ) : ℚ :=
  roundTo 6 ((1 - weight) * norm (exact.getD 0) + weight * norm (vector.getD 0))

/-- `fused`: a ref with its scores. -/
structure Fused where
  ref : String
  score : ℚ
  exactScore : Option ℚ
  vectorScore : Option ℚ

/-- The refs of the exact page first, then those of the vector index alone. -/
def fusedRefs (exactRefs vectorRefs : List String) : List String := firsts (exactRefs ++ vectorRefs)

/-- The scores of a ref. -/
def fusedOf (exactScores vectorScores : List (String × ℚ)) (weight : ℚ) (ref : String) : Fused where
  ref := ref
  score := fuse (lastValue exactScores ref) (lastValue vectorScores ref) weight
  exactScore := lastValue exactScores ref
  vectorScore := lastValue vectorScores ref

/-- A hit of the page; `base` is what was found of its ref. -/
def fusedHit (base : Option KindTaggedSearchHit) (f : Fused) : KindTaggedSearchHit :=
  match base with
  | some b => ⟨f.ref, b.kind, b.text, b.sourceId, b.segmentId, b.entityRef, f.score, f.exactScore, f.vectorScore, kindLabel b.kind⟩
  | none => ⟨f.ref, "INTERPRETATION", f.ref, none, none, none, f.score, f.exactScore, f.vectorScore, kindLabel "INTERPRETATION"⟩

/-- `by_ref`: the exact hits, and over them the ones looked up. -/
def byRef (exactHits vectorHits : List KindTaggedSearchHit) : List (String × KindTaggedSearchHit) :=
  (exactHits ++ vectorHits).map fun h => (h.ref, h)

/-- `max(limit * 4, 40)` -/
def candidates (limit : ℕ) : ℕ := max (limit * 4) 40

/-- `hybrid` -/
def hybrid (query : String) (filters : Option SearchFilters) (limit offset : ℕ) (index : Option (VectorIndex V)) (weight : ℚ) :
    KindTaggedSearchPage :=
  let exactHits := (svc.exact query filters (candidates limit) 0).hits
  let exactScores := exactHits.map fun h => (h.ref, h.score)
  let (backend, vectorScores) := svc.vectorAnswer query (candidates limit) index
  let found := byRef exactHits (svc.byRefs (vectorScores.map (·.1)))
  let fused := (fusedRefs (exactScores.map (·.1)) (vectorScores.map (·.1))).map (fusedOf exactScores vectorScores weight)
  let ordered := ((fused.insertionSort fun f f' => f'.score ≤ f.score).drop offset).take limit
  { engine := "hybrid", vectorBackend := backend, hits := ordered.map fun f => fusedHit (lastValue found f.ref) f
    total := fused.length, limit := limit, offset := offset, query := query }

/-! ## What a hit refers to -/

/-- The document of a hit's kind and ref is stored, and satisfies all the filters. -/
def HitKept (store : DocStore) (filters : Option SearchFilters) (h : KindTaggedSearchHit) : Prop :=
  ∃ d ∈ store.rows, d.kind = h.kind ∧ d.ref = h.ref ∧ d.passes filters = true

/-- The document a ref is looked up as: of several the one listed last. -/
def lookedUp (store : DocStore) (ref : String) : Option StoredDoc :=
  lastValue (store.rows.map fun d => (d.ref, d)) ref

/-- The ref is looked up as a document that satisfies all the filters. -/
def InScope (store : DocStore) (filters : Option SearchFilters) (ref : String) : Prop :=
  ∃ d, lookedUp store ref = some d ∧ d.passes filters = true

theorem lookedUp_mem {store : DocStore} {ref : String} {d : StoredDoc} (h : lookedUp store ref = some d) :
    d ∈ store.rows ∧ d.ref = ref := by
  obtain ⟨d', hd', he⟩ := List.mem_map.1 (lastValue_mem h)
  cases he
  exact ⟨hd', rfl⟩

theorem lookedUp_isSome {store : DocStore} {d : StoredDoc} (h : d ∈ store.rows) : ∃ d', lookedUp store d.ref = some d' := by
  apply lastValue_isSome
  rw [List.map_map]
  exact List.mem_map.2 ⟨d, h, rfl⟩

/-- A row that the statement gives is stored and satisfies the filters. -/
theorem exactRows_mem {query : String} {filters : Option SearchFilters} {d : StoredDoc} (h : d ∈ svc.exactRows query filters) :
    d ∈ svc.store.rows ∧ d.passes filters = true := by
  obtain ⟨hd, hp⟩ := List.mem_filter.1 ((List.mem_insertionSort _).1 h)
  exact ⟨hd, (Bool.and_eq_true_iff.1 hp).2⟩

theorem exact_hits_mem {query : String} {filters : Option SearchFilters} {limit offset : ℕ} {h : KindTaggedSearchHit}
    (hm : h ∈ (svc.exact query filters limit offset).hits) :
    ∃ d ∈ svc.store.rows, d.passes filters = true ∧ h = d.hit (some (svc.text.tsRank query d)) := by
  obtain ⟨d, hd, rfl⟩ := List.mem_map.1 hm
  obtain ⟨hrow, hpass⟩ := svc.exactRows_mem (List.mem_of_mem_drop (List.mem_of_mem_take hd))
  exact ⟨d, hrow, hpass, rfl⟩

/-- **Every hit of the exact page is kept.** -/
theorem exact_kept (query : String) (filters : Option SearchFilters) (limit offset : ℕ) :
    ∀ h ∈ (svc.exact query filters limit offset).hits, HitKept svc.store filters h := by
  intro h hm
  obtain ⟨d, hd, hpass, rfl⟩ := svc.exact_hits_mem hm
  exact ⟨d, hd, rfl, rfl, hpass⟩

/-- What is found of a ref among the rows that have it is the row listed last. -/
theorem byRefs_lastValue {refs : List String} {ref : String} (h : ref ∈ refs) :
    lastValue ((svc.byRefs refs).map fun b => (b.ref, b)) ref = (lookedUp svc.store ref).map fun d => d.hit none := by
  have hpairs : (svc.byRefs refs).map (fun b => (b.ref, b)) =
      ((svc.store.rows.map fun d => (d.ref, d)).filter fun q => refs.contains q.1).map fun q => (q.1, q.2.hit none) := by
    rw [byRefs, List.map_map, List.filter_map, List.map_map]
    rfl
  have hc : refs.contains ref = true := List.contains_iff_mem.2 h
  rw [hpairs, lastValue_map fun d : StoredDoc => d.hit none, lastValue_filter (p := fun r => refs.contains r) hc]
  rfl

/-! ## A page -/

variable (query : String) (filters : Option SearchFilters) (limit : ℕ) (index : Option (VectorIndex V)) (weight : ℚ)

/-- The refs the vector index answers a page of so many hits. -/
def answeredRefs : List String := (svc.vectorAnswer query (candidates limit) index).2.map (·.1)

/-- The refs of the exact page a hybrid page is made of. -/
def exactRefs : List String := (svc.exact query filters (candidates limit) 0).hits.map (·.ref)

/-- What is found of a ref. -/
def baseOf (ref : String) : Option KindTaggedSearchHit :=
  lastValue (byRef (svc.exact query filters (candidates limit) 0).hits (svc.byRefs (svc.answeredRefs query limit index))) ref

/-- The entries of `fused`, the greatest score first. -/
def ranked : List Fused :=
  let exactScores := (svc.exact query filters (candidates limit) 0).hits.map fun h => (h.ref, h.score)
  let vectorScores := (svc.vectorAnswer query (candidates limit) index).2
  ((fusedRefs (exactScores.map (·.1)) (vectorScores.map (·.1))).map (fusedOf exactScores vectorScores weight)).insertionSort
    fun f f' => f'.score ≤ f.score

theorem hybrid_hits (offset : ℕ) : (svc.hybrid query filters limit offset index weight).hits =
    (((svc.ranked query filters limit index weight).drop offset).take limit).map fun f =>
      fusedHit (svc.baseOf query filters limit index f.ref) f := rfl

/-- The refs that are ranked are those of the exact page and those the index answers, each once. -/
theorem ranked_refs : ((svc.ranked query filters limit index weight).map (·.ref)).Perm
    (firsts (svc.exactRefs query filters limit ++ svc.answeredRefs query limit index)) := by
  have hperm := (List.perm_insertionSort (fun f f' : Fused => f'.score ≤ f.score)
    ((fusedRefs (((svc.exact query filters (candidates limit) 0).hits.map fun h => (h.ref, h.score)).map (·.1))
      (svc.answeredRefs query limit index)).map
        (fusedOf ((svc.exact query filters (candidates limit) 0).hits.map fun h => (h.ref, h.score))
          (svc.vectorAnswer query (candidates limit) index).2 weight))).map (·.ref)
  refine hperm.trans (List.Perm.of_eq ?_)
  rw [List.map_map, fusedRefs, exactRefs, List.map_map]
  exact List.map_id _

theorem nodup_ranked : ((svc.ranked query filters limit index weight).map (·.ref)).Nodup :=
  (svc.ranked_refs query filters limit index weight).nodup_iff.2 (nodup_firsts _)

theorem mem_ranked {ref : String} : ref ∈ (svc.ranked query filters limit index weight).map (·.ref) ↔
    ref ∈ svc.exactRefs query filters limit ∨ ref ∈ svc.answeredRefs query limit index := by
  rw [(svc.ranked_refs query filters limit index weight).mem_iff, mem_firsts, List.mem_append]

@[simp] theorem fusedHit_ref (base : Option KindTaggedSearchHit) (f : Fused) : (fusedHit base f).ref = f.ref := by
  cases base <;> rfl

/-- **No ref, so no document, is on a page twice.** -/
theorem hybrid_nodup (offset : ℕ) : ((svc.hybrid query filters limit offset index weight).hits.map (·.ref)).Nodup := by
  rw [hybrid_hits, List.map_map]
  have hrefs : ((fun h : KindTaggedSearchHit => h.ref) ∘ fun f => fusedHit (svc.baseOf query filters limit index f.ref) f) =
      fun f : Fused => f.ref := by
    funext f
    exact fusedHit_ref _ f
  rw [hrefs]
  refine List.Nodup.sublist ?_ (svc.nodup_ranked query filters limit index weight)
  exact ((List.take_sublist _ _).trans (List.drop_sublist _ _)).map _

/-- What is found of a ref the index answers is the document it is looked up as. -/
theorem baseOf_answered {ref : String} (h : ref ∈ svc.answeredRefs query limit index) {d : StoredDoc}
    (hd : lookedUp svc.store ref = some d) : svc.baseOf query filters limit index ref = some (d.hit none) := by
  rw [baseOf, byRef, List.map_append, lastValue_append, svc.byRefs_lastValue h, hd]
  rfl

/-- What is found of a ref of the exact page alone is one of its hits. -/
theorem baseOf_exact {ref : String} (h : ref ∈ svc.exactRefs query filters limit) (hn : ref ∉ svc.answeredRefs query limit index) :
    ∃ b ∈ (svc.exact query filters (candidates limit) 0).hits, b.ref = ref ∧ svc.baseOf query filters limit index ref = some b := by
  have hnone : ref ∉ ((svc.byRefs (svc.answeredRefs query limit index)).map fun b => (b.ref, b)).map (·.1) := by
    intro hm
    rw [List.map_map] at hm
    obtain ⟨b, hb, rfl⟩ := List.mem_map.1 hm
    obtain ⟨d, hd, rfl⟩ := List.mem_map.1 hb
    exact hn (List.contains_iff_mem.1 (List.mem_filter.1 hd).2)
  have hkey : ref ∈ ((svc.exact query filters (candidates limit) 0).hits.map fun b => (b.ref, b)).map (·.1) := by
    rw [List.map_map]
    exact h
  obtain ⟨b, hb⟩ := lastValue_isSome hkey
  obtain ⟨b', hb', he⟩ := List.mem_map.1 (lastValue_mem hb)
  cases he
  refine ⟨b, hb', rfl, ?_⟩
  rw [baseOf, byRef, List.map_append, lastValue_append, lastValue_none hnone, hb]
  rfl

/-- **A ranked ref makes a hit that is kept, unless the index answers it and it is not in scope.** -/
theorem fusedHit_kept {f : Fused} (hf : f ∈ svc.ranked query filters limit index weight) :
    HitKept svc.store filters (fusedHit (svc.baseOf query filters limit index f.ref) f) ↔
      (f.ref ∈ svc.answeredRefs query limit index → InScope svc.store filters f.ref) := by
  by_cases ha : f.ref ∈ svc.answeredRefs query limit index
  · constructor
    · rintro ⟨d, hd, hkind, href, hpass⟩ _
      rw [fusedHit_ref] at href
      obtain ⟨d', hd'⟩ := lookedUp_isSome hd
      rw [href] at hd'
      obtain ⟨hrow, hr⟩ := lookedUp_mem hd'
      rw [svc.baseOf_answered query filters limit index ha hd'] at hkind
      have heq : d = d' := svc.store.eq_of_key hd hrow hkind (href.trans hr.symm)
      exact ⟨d', hd', heq ▸ hpass⟩
    · intro h
      obtain ⟨d, hd, hpass⟩ := h ha
      obtain ⟨hrow, hr⟩ := lookedUp_mem hd
      rw [svc.baseOf_answered query filters limit index ha hd]
      exact ⟨d, hrow, rfl, hr, hpass⟩
  · refine ⟨fun _ h => absurd h ha, fun _ => ?_⟩
    have hx : f.ref ∈ svc.exactRefs query filters limit :=
      ((svc.mem_ranked query filters limit index weight).1 (List.mem_map_of_mem hf)).resolve_right ha
    obtain ⟨b, hb, hr, hbase⟩ := svc.baseOf_exact query filters limit index hx ha
    obtain ⟨d, hd, hkind, href, hpass⟩ := svc.exact_kept query filters _ _ b hb
    rw [hbase]
    exact ⟨d, hd, hkind, href.trans hr, hpass⟩

/-- Every hit of the page is kept and none is on it twice. -/
def PageKept (page : KindTaggedSearchPage) : Prop :=
  (∀ h ∈ page.hits, HitKept svc.store filters h) ∧ (page.hits.map (·.ref)).Nodup

/-- **The pages keep to the filters where the index answers nothing outside of them.** -/
theorem hybrid_kept_iff : (∀ offset, svc.PageKept filters (svc.hybrid query filters limit offset index weight)) ↔
    limit = 0 ∨ ∀ ref ∈ svc.answeredRefs query limit index, InScope svc.store filters ref := by
  constructor
  · intro h
    rw [or_iff_not_imp_left]
    intro hlimit ref hr
    obtain ⟨f, hf, rfl⟩ := List.mem_map.1 ((svc.mem_ranked query filters limit index weight).2 (.inr hr))
    -- the page that begins with the ref
    obtain ⟨i, hi, rfl⟩ := List.getElem_of_mem hf
    refine (svc.fusedHit_kept query filters limit index weight hf).1 ((h i).1 _ ?_) hr
    rw [hybrid_hits, List.drop_eq_getElem_cons hi]
    obtain ⟨n, rfl⟩ := Nat.exists_eq_succ_of_ne_zero hlimit
    exact List.mem_map.2 ⟨_, List.mem_cons_self, rfl⟩
  · intro h offset
    refine ⟨fun x hx => ?_, svc.hybrid_nodup query filters limit index weight offset⟩
    rw [hybrid_hits] at hx
    obtain ⟨f, hf, rfl⟩ := List.mem_map.1 hx
    rcases h with rfl | h
    · cases hf
    · have hm : f ∈ svc.ranked query filters limit index weight := List.mem_of_mem_drop (List.mem_of_mem_take hf)
      exact (svc.fusedHit_kept query filters limit index weight hm).2 fun ha => h f.ref ha

/-- A service over the mentions of two sources, and an index that holds both. -/
def twoSources : SearchService Unit where
  store :=
    { rows := [⟨"m:1", "SOURCE_EVIDENCE", "Holmes", none, some "s:1", none, none, none, none, none⟩,
        ⟨"m:2", "SOURCE_EVIDENCE", "Holmes", none, some "s:2", none, none, none, none, none⟩]
      unique := by decide }
  text := ⟨fun query d => d.text = query, fun _ _ => 1 / 10, fun r r' => r ≤ r'⟩
  embedText := fun _ => ()

def bothMentions : VectorIndex Unit := ⟨false, .ok true, fun _ topK => .ok ([("m:1", 1), ("m:2", 1)].take topK)⟩

/-- With the filter on the first source, the mention of the second is a hit. -/
theorem other_source_found :
    ¬ twoSources.PageKept (some { sourceId := some "s:1" })
      (twoSources.hybrid "Holmes" (some { sourceId := some "s:1" }) 20 0 (some bothMentions) (1 / 2)) := by
  rintro ⟨h, -⟩
  have hhits : (twoSources.hybrid "Holmes" (some { sourceId := some "s:1" }) 20 0 (some bothMentions) (1 / 2)).hits.map
      (fun x => (x.ref, x.sourceId)) = [("m:1", some "s:1"), ("m:2", some "s:2")] := by decide +kernel
  have hm : ("m:2", some "s:2") ∈ (twoSources.hybrid "Holmes" (some { sourceId := some "s:1" }) 20 0 (some bothMentions)
      (1 / 2)).hits.map fun x => (x.ref, x.sourceId) := by
    rw [hhits]
    decide
  obtain ⟨x, hx, hx2⟩ := List.mem_map.1 hm
  obtain ⟨d, hd, -, href, hpass⟩ := h x hx
  rw [(Prod.mk.inj hx2).1] at href
  have hnone : ∀ d ∈ twoSources.store.rows, d.ref = "m:2" → d.passes (some { sourceId := some "s:1" }) = false := by
    decide +kernel
  exact absurd (hnone d hd href) (by rw [hpass]; decide)

end SearchService

end Umd.Projections
