import Umd.Lib.LevelSearch
import Umd.Projections.Query
/-!
# Traversals

`QueryService.traverse`: from a ref along `object_ref`, level by level, over the rows of
`current_state`. A neighbour and its predicate are marked as one text, and two pairs whose
texts are equal are taken for one: every pair is reported, once and at its least depth, if
and only if no two pairs within reach are spelled the same (`traverse_exact_iff`).
-/

namespace Umd.Query

open Umd.Lib Umd.Lib.LevelSearch Umd.Reducer

/-- `StructuredQuery` with the ref it starts from. -/
structure TraversalQuery extends StructuredQuery where
  ref : Option String := none

/-- `q.ref or q.filters.get("ref")`. -/
def TraversalQuery.start (q : TraversalQuery) : Option String := (q.ref.filter (· ≠ "")).or (q.filter "ref")

/-- `max(0, min(q.max_depth, 4))`. -/
def TraversalQuery.depth (q : TraversalQuery) : ℕ := (max 0 (min q.maxDepth 4)).toNat

/-- `object_ref`, where it is not empty. -/
def objectOf (r : ScalarRow) : Option String := r.objectRef.filter (· ≠ "")

/-- `r.object_ref or r.entity_ref`. -/
def neighbour (r : ScalarRow) : String := (objectOf r).getD r.entityRef

/-- `key`. -/
def traversalKey (r : ScalarRow) : String := neighbour r ++ ":" ++ r.predicate

/-- The rows of the result kind. -/
def traversalRows (db : Tables) (q : TraversalQuery) : List ScalarRow :=
  if q.resultKind = some "CANONICAL_ENTITY" then db.states.filter (·.predicate = "CANONICAL_ENTITY") else db.states

/-- The order in which the database returns the rows of each level. -/
structure RowOrder where
  order : ℕ → List ScalarRow → List ScalarRow
  perm : ∀ d rows, (order d rows).Perm rows

/-- The rows that leave the nodes of a level, without the limit. -/
def leaving (db : Tables) (q : TraversalQuery) (frontier : List String) : List ScalarRow :=
  (traversalRows db q).filter (·.entityRef ∈ frontier)

/-- The answer to the statement of a level. -/
def levelRows (o : RowOrder) (db : Tables) (q : TraversalQuery) (d : ℕ) (frontier : List String) : List ScalarRow :=
  (o.order d (leaving db q (frontier.dedup.mergeSort (· ≤ ·)))).take 500

/-- The hit of a row, at the depth that follows a level. -/
def traversalHit (r : ScalarRow) (d : ℕ) : QueryResultHit where
  ref := neighbour r
  kind := if r.predicate = "CANONICAL_ENTITY" then "CANONICAL_ENTITY" else sourceEvidence
  label := "neighbor"
  predicate := some r.predicate
  value := r.objectRef
  confidence := r.confidence
  data := [("depth", natJson (d + 1))]

/-- The loop over the levels; it ends at an empty one. -/
def traverseFrom (answer : ℕ → List String → List ScalarRow) : ℕ → ℕ → Level ScalarRow String String → Level ScalarRow String String × ℕ
  | 0, d, s => (s, d)
  | n + 1, d, s =>
    if s.frontier = [] then (s, d) else traverseFrom answer n (d + 1) (level objectOf traversalKey d s (answer d s.frontier))

/-- `results`, before the page is cut. -/
def traverseHits (o : RowOrder) (db : Tables) (q : TraversalQuery) (start : String) : List QueryResultHit × ℕ :=
  let (s, used) := traverseFrom (levelRows o db q) q.depth 0 { frontier := [start] }
  (s.found.map fun x => traversalHit x.1 x.2, used)

/-- `traverse`. -/
def traverse (o : RowOrder) (db : Tables) (q : TraversalQuery) : Except PyError ProvenanceBearingPage := do
  scope q.toStructuredQuery false false false
  match q.start with
  | none => .error .valueError
  | some start =>
    let (hits, used) := traverseHits o db q start
    let results := (hits.drop q.offset).take q.limit
    return {
      query := "TRAVERSAL"
      results
      total := results.length
      limit := q.limit
      offset := q.offset
      resultKinds := ["CANONICAL_ENTITY", sourceEvidence]
      provenance := [("start", .str start)]
      boundReport := { depthUsed := used, maxDepthCap := q.depth } }

/-! ## What is promised -/

/-- What is reached from the start through `object_ref` in so many steps. -/
def Reached (db : Tables) (q : TraversalQuery) (start : String) : ℕ → String → Prop :=
  Reach ScalarRow.entityRef objectOf (traversalRows db q) start

/-- The levels at which a row names the neighbour by the predicate. -/
def pairLevels (db : Tables) (q : TraversalQuery) (start neighbour' predicate : String) : Set ℕ :=
  {k | ∃ r ∈ traversalRows db q, Reached db q start k r.entityRef ∧ neighbour r = neighbour' ∧ r.predicate = predicate}

/-- The hits are the pairs within reach, each once and at its least depth. -/
structure PairsReported (db : Tables) (q : TraversalQuery) (start : String) (hits : List QueryResultHit) : Prop where
  once : (hits.map fun h => (h.ref, h.predicate)).Nodup
  exact : ∀ n p k, (∃ h ∈ hits, h.ref = n ∧ h.predicate = some p ∧ h.data = [("depth", natJson (k + 1))]) ↔
    k < q.depth ∧ IsLeast (pairLevels db q start n p) k

/-- Pairs within reach that are spelled the same are the same. -/
def SpelledApart (db : Tables) (q : TraversalQuery) (start : String) : Prop :=
  ∀ r ∈ traversalRows db q, ∀ r' ∈ traversalRows db q, (∃ k < q.depth, Reached db q start k r.entityRef) →
    (∃ k < q.depth, Reached db q start k r'.entityRef) → traversalKey r = traversalKey r' →
    neighbour r = neighbour r' ∧ r.predicate = r'.predicate

/-- No level has more rows than its statement returns. -/
def LevelsFit (o : RowOrder) (db : Tables) (q : TraversalQuery) (start : String) : Prop :=
  ∀ d < q.depth, (leaving db q (levels objectOf traversalKey (levelRows o db q) start d).frontier).length ≤ 500

variable {o : RowOrder} {db : Tables} {q : TraversalQuery} {start : String}

/-! ## The loop -/

/-- From an empty level on nothing is found. -/
theorem levels_empty {answer : ℕ → List String → List ScalarRow} (hnone : ∀ d, answer d [] = []) {d : ℕ}
    (h : (levels objectOf traversalKey answer start d).frontier = []) (n : ℕ) :
    (levels objectOf traversalKey answer start (d + n)).found = (levels objectOf traversalKey answer start d).found ∧
      (levels objectOf traversalKey answer start (d + n)).frontier = [] := by
  induction n with
  | zero => exact ⟨rfl, h⟩
  | succ n ih =>
    rw [← Nat.add_assoc, levels, ih.2, hnone]
    exact ⟨ih.1, rfl⟩

theorem traverseFrom_found {answer : ℕ → List String → List ScalarRow} (hnone : ∀ d, answer d [] = []) (n d : ℕ) :
    (traverseFrom answer n d (levels objectOf traversalKey answer start d)).1.found =
      (levels objectOf traversalKey answer start (d + n)).found := by
  induction n generalizing d with
  | zero => rfl
  | succ n ih =>
    rw [traverseFrom]
    split
    · rename_i hempty
      exact ((levels_empty hnone hempty (n + 1)).1).symm
    · rw [Nat.add_comm n 1, ← Nat.add_assoc]
      exact ih (d + 1)

theorem leaving_sorted (frontier : List String) : leaving db q (frontier.dedup.mergeSort (· ≤ ·)) = leaving db q frontier := by
  unfold leaving
  refine List.filter_congr fun r _ => ?_
  rw [decide_eq_decide, List.mem_mergeSort, List.mem_dedup]

theorem levelRows_nil (d : ℕ) : levelRows o db q d [] = [] := by
  unfold levelRows
  rw [leaving_sorted]
  have hnone : leaving db q [] = [] := List.filter_eq_nil_iff.2 fun r _ => by simp
  rw [hnone, (o.perm d []).eq_nil, List.take_nil]

theorem mem_levelRows {d : ℕ} {frontier : List String} (hfit : (leaving db q frontier).length ≤ 500) (r : ScalarRow) :
    r ∈ levelRows o db q d frontier ↔ r ∈ traversalRows db q ∧ r.entityRef ∈ frontier := by
  unfold levelRows
  rw [leaving_sorted, List.take_of_length_le (by rw [(o.perm _ _).length_eq]; exact hfit), (o.perm _ _).mem_iff, leaving,
    List.mem_filter, decide_eq_true_eq]

theorem traverseHits_eq : (traverseHits o db q start).1 =
    (levels objectOf traversalKey (levelRows o db q) start q.depth).found.map fun x => traversalHit x.1 x.2 := by
  have hfound := @traverseFrom_found start (levelRows o db q) levelRows_nil q.depth 0
  rw [Nat.zero_add] at hfound
  unfold traverseHits
  dsimp only
  rw [← hfound]
  rfl

/-- A level does not have more rows than the table. -/
theorem levelsFit_of_few (h : db.states.length ≤ 500) : LevelsFit o db q start := by
  intro d _
  have hrows : (traversalRows db q).length ≤ db.states.length := by
    unfold traversalRows
    split
    · exact List.length_filter_le ..
    · exact le_rfl
  exact ((List.length_filter_le ..).trans hrows).trans h

/-! ## Pairs and their texts -/

/-- The text of a hit's pair. -/
def hitKey (h : QueryResultHit) : String := h.ref ++ ":" ++ h.predicate.getD ""

/-- No two hits have one text. -/
theorem hits_apart : ((traverseHits o db q start).1.map hitKey).Nodup := by
  rw [traverseHits_eq, List.map_map]
  exact (@levels_nodup _ _ _ _ objectOf traversalKey start (levelRows o db q) q.depth).1

theorem natJson_inj {m n : ℕ} (h : natJson m = natJson n) : m = n := by
  unfold natJson at h
  rw [Json.num.injEq, Number.dec.injEq] at h
  exact_mod_cast h.1

theorem mem_hits {n p : String} {k : ℕ} : (∃ h ∈ (traverseHits o db q start).1, h.ref = n ∧ h.predicate = some p ∧
      h.data = [("depth", natJson (k + 1))]) ↔
    ∃ r, (r, k) ∈ (levels objectOf traversalKey (levelRows o db q) start q.depth).found ∧ neighbour r = n ∧ r.predicate = p := by
  rw [traverseHits_eq]
  constructor
  · rintro ⟨h, hh, rfl, hp, hdata⟩
    obtain ⟨⟨r, d⟩, hr, rfl⟩ := List.mem_map.1 hh
    have hdepth : natJson (d + 1) = natJson (k + 1) := (Prod.mk.inj (List.cons.inj hdata).1).2
    obtain rfl : d = k := Nat.succ.inj (natJson_inj hdepth)
    exact ⟨r, hr, rfl, Option.some.inj hp⟩
  · rintro ⟨r, hr, rfl, rfl⟩
    exact ⟨traversalHit r k, List.mem_map_of_mem hr, rfl, rfl, rfl⟩

/-- If all pairs within reach are reported, none of them share a text. -/
theorem apart_of_reported (h : PairsReported db q start (traverseHits o db q start).1) : SpelledApart db q start := by
  have hreported : ∀ r ∈ traversalRows db q, (∃ k < q.depth, Reached db q start k r.entityRef) →
      ∃ hit ∈ (traverseHits o db q start).1, hit.ref = neighbour r ∧ hit.predicate = some r.predicate := by
    rintro r hr ⟨k, hk, hreach⟩
    have hlevels : (pairLevels db q start (neighbour r) r.predicate).Nonempty := ⟨k, r, hr, hreach, rfl, rfl⟩
    obtain ⟨hit, hhit, href, hp, -⟩ := (h.exact (neighbour r) r.predicate (sInf (pairLevels db q start (neighbour r) r.predicate))).2
      ⟨lt_of_le_of_lt (Nat.sInf_le ⟨r, hr, hreach, rfl, rfl⟩) hk, Nat.sInf_mem hlevels, fun _ hm => Nat.sInf_le hm⟩
    exact ⟨hit, hhit, href, hp⟩
  intro r hr r' hr' hreach hreach' hkey
  obtain ⟨hit, hhit, href, hp⟩ := hreported r hr hreach
  obtain ⟨hit', hhit', href', hp'⟩ := hreported r' hr' hreach'
  have hsame : hitKey hit = hitKey hit' := by
    unfold hitKey
    rw [href, hp, href', hp']
    exact hkey
  have hone := List.inj_on_of_nodup_map hits_apart hhit hhit' hsame
  rw [hone, href'] at href
  rw [hone, hp'] at hp
  exact ⟨href.symm, (Option.some.inj hp).symm⟩

theorem reported_of_apart (hfit : LevelsFit o db q start) (h : SpelledApart db q start) :
    PairsReported db q start (traverseHits o db q start).1 := by
  have hspec := @levels_spec _ _ _ _ ScalarRow.entityRef objectOf traversalKey (traversalRows db q) start (levelRows o db q) q.depth
    (fun r hr r' hr' hreach hreach' hkey => (h r hr r' hr' hreach hreach' hkey).1) (fun d hd => mem_levelRows (hfit d hd)) q.depth le_rfl
  constructor
  · refine List.Nodup.of_map (fun x : String × Option String => x.1 ++ ":" ++ x.2.getD "") ?_
    rw [List.map_map]
    exact hits_apart
  · intro n p k
    rw [mem_hits]
    constructor
    · rintro ⟨r, hr, rfl, rfl⟩
      obtain ⟨hrow, hk, hreach⟩ := hspec.edges _ hr
      obtain ⟨-, -, hleast⟩ := (hspec.found (traversalKey r) k).1 ⟨r, hr, rfl⟩
      refine ⟨hk, ⟨r, hrow, hreach, rfl, rfl⟩, fun k' hk' => hleast ?_⟩
      obtain ⟨r', hrow', hreach', hn, hp⟩ := hk'
      exact ⟨r', hrow', hreach', by unfold traversalKey; rw [hn, hp]⟩
    · rintro ⟨hk, ⟨r, hrow, hreach, rfl, rfl⟩, hleast⟩
      have hfirst : IsLeast (keyLevels ScalarRow.entityRef objectOf traversalKey (traversalRows db q) start (traversalKey r)) k := by
        refine ⟨⟨r, hrow, hreach, rfl⟩, fun k' hk' => ?_⟩
        obtain ⟨r', hrow', hreach', hkey⟩ := hk'
        by_contra hearly
        obtain ⟨hn, hp⟩ := h r' hrow' r hrow ⟨k', by omega, hreach'⟩ ⟨k, hk, hreach⟩ hkey
        exact hearly (hleast ⟨r', hrow', hreach', hn, hp⟩)
      obtain ⟨r', hr', hkey⟩ := (hspec.found (traversalKey r) k).2 ⟨hk, hfirst⟩
      obtain ⟨hrow', -, hreach'⟩ := hspec.edges _ hr'
      obtain ⟨hn, hp⟩ := h r' hrow' r hrow ⟨k, hk, hreach'⟩ ⟨k, hk, hreach⟩ hkey
      exact ⟨r', hr', hn, hp⟩

/-- **A traversal whose levels fit reports the pairs within reach, each once and at its least depth, if and only if no two of them are
spelled the same.** -/
theorem traverse_exact_iff (o : RowOrder) (db : Tables) (q : TraversalQuery) (start : String) (hfit : LevelsFit o db q start) :
    PairsReported db q start (traverseHits o db q start).1 ↔ SpelledApart db q start :=
  ⟨apart_of_reported, reported_of_apart hfit⟩

/-! ## Two rows -/

/-- The rows as they stand in the table. -/
def RowOrder.listed : RowOrder := ⟨fun _ rows => rows, fun _ _ => .refl _⟩

def stateOf (entityRef predicate objectRef : String) : ScalarRow where
  entityRef := entityRef
  predicate := predicate
  objectRef := some objectRef
  confidence := .null
  authority := .null
  state := .str "CONFIRMED"
  seq := 1

/-- Two rows of one entity, and nothing else. -/
def tablesOf (predicate object predicate' object' : String) (h : predicate ≠ predicate') : Tables where
  states := [stateOf "s" predicate object, stateOf "s" predicate' object']
  segments := []
  evidence := []
  alignments := []
  mentions := []
  edges := []
  sources := []
  events := []
  stateKeys := by simp [stateOf, h]
  segmentIds := List.nodup_nil
  evidenceIds := List.nodup_nil
  alignmentIds := List.nodup_nil
  mentionIds := List.nodup_nil
  factIds := List.nodup_nil

theorem traverse_exact_iff_two : PairsReported (tablesOf "KNOWS" "a" "LOVES" "b" (by decide)) { kind := "TRAVERSAL" } "s"
    (traverseHits .listed (tablesOf "KNOWS" "a" "LOVES" "b" (by decide)) { kind := "TRAVERSAL" } "s").1 := by
  refine (traverse_exact_iff .listed _ _ _ (levelsFit_of_few (by decide))).2 ?_
  intro r hr r' hr' _ _ hkey
  have hall : ∀ r ∈ (tablesOf "KNOWS" "a" "LOVES" "b" (by decide)).states, ∀ r' ∈ (tablesOf "KNOWS" "a" "LOVES" "b" (by decide)).states,
      traversalKey r = traversalKey r' → neighbour r = neighbour r' ∧ r.predicate = r'.predicate := by decide +kernel
  exact hall r hr r' hr' hkey

/-- `a` by `b:c` and `a:b` by `c` are taken for one pair. -/
theorem spelled_alike_merged : ¬ ∀ (o : RowOrder) (db : Tables) (q : TraversalQuery) (start : String), LevelsFit o db q start →
    PairsReported db q start (traverseHits o db q start).1 := by
  intro hall
  have happart := apart_of_reported (hall .listed (tablesOf "b:c" "a" "c" "a:b" (by decide)) { kind := "TRAVERSAL" } "s"
    (levelsFit_of_few (by decide)))
  obtain ⟨hsame, -⟩ := happart (stateOf "s" "b:c" "a") (.head _) (stateOf "s" "c" "a:b") (.tail _ (.head _)) ⟨0, by decide, rfl⟩
    ⟨0, by decide, rfl⟩ (by decide +kernel)
  exact absurd hsame (by decide)

end Umd.Query
