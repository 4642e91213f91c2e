import Umd.Resolution.Service
/-!
# Clusters of mentions

The components `resolve_mentions` ends with are the classes of a partition: mentions
that carry an entity seed their class, and the considered edges join classes in turn.
Every mention is assigned or unresolved, one that carries an entity is assigned to it,
and the contradictions are the edges that met two seeds (`mentions_resolved`).
-/

namespace Umd.Resolution

open Umd.Lib Umd.Reducer Umd.Projections

/-! ## The partition of the passes -/

/-- The entity that the first mention of an id carries. -/
def carried (ms : List SourceMention) (id : String) : Option String :=
  (ms.filter (·.mentionId = id)).findSome? fun m => nonEmpty m.entityId

/-- The clusters after some edges. -/
noncomputable def clusters (t : Task) (edges : List (String × String)) : Partition String String :=
  (Partition.alone (carried t.mentions)).steps edges

theorem carried_snoc (ms : List SourceMention) (m : SourceMention) :
    carried (ms ++ [m]) = fun id => (carried ms id).or (if m.mentionId = id then nonEmpty m.entityId else none) := by
  funext id
  rw [carried, carried, List.filter_append, List.findSome?_append]
  by_cases h : m.mentionId = id <;> simp [h]

theorem seedWith_stands {l : Linker} {f : String → Option String} (h : l.uf.Stands (.alone f)) (m : SourceMention) :
    (l.seedWith m).uf.Stands (.alone fun id => (f id).or (if m.mentionId = id then nonEmpty m.entityId else none)) := by
  unfold Linker.seedWith
  cases he : nonEmpty m.entityId with
  | none => simpa using h
  | some entity =>
    dsimp only
    have hseed : (l.uf.find m.mentionId).1.seed (l.uf.find m.mentionId).2 = f m.mentionId := by
      obtain ⟨root, hf, -, hs⟩ := h
      obtain ⟨hx, -, hs'⟩ := UnionFind.find_spec hf m.mentionId
      rw [hx, hs', hs]
      rfl
    rw [hseed]
    split
    · rename_i hnone
      have hupd : (fun id => (f id).or (if m.mentionId = id then some entity else none)) =
          Function.update f m.mentionId (some entity) := by
        funext id
        by_cases hid : id = m.mentionId
        · rw [hid, Function.update_self, hnone, if_pos rfl]
          rfl
        · rw [Function.update_of_ne hid, if_neg (Ne.symm hid), Option.or_none]
      rw [hupd]
      exact UnionFind.setSeed_stands h m.mentionId (some entity)
    · rename_i hsome
      have hsame : (fun id => (f id).or (if m.mentionId = id then some entity else none)) = f := by
        funext id
        by_cases hid : m.mentionId = id
        · obtain ⟨s, hs⟩ := Option.ne_none_iff_exists'.1 hsome
          rw [← hid, hs]
          rfl
        · rw [if_neg hid, Option.or_none]
      rw [hsame]
      exact UnionFind.find_stands h m.mentionId

theorem seeded_stands (ms : List SourceMention) : (ms.foldl Linker.seedWith {}).uf.Stands (.alone (carried ms)) := by
  induction ms using List.reverseRecOn with
  | nil => exact ⟨id, UnionFind.start_forest, fun _ _ => Iff.rfl, fun _ => rfl⟩
  | append_singleton ms m ih =>
    rw [List.foldl_append, carried_snoc]
    exact seedWith_stands ih m

/-- Recording changes no component. -/
@[simp] theorem recordContradiction_uf (l : Linker) (s t ref : String) : (l.recordContradiction s t ref).uf = l.uf := by
  unfold Linker.recordContradiction
  dsimp only
  generalize (if s ≤ t then (s, t) else (t, s)) = key
  split
  · rfl
  · rfl

theorem linker_union_uf (l : Linker) (a b : String) : (l.union a b).uf = (l.uf.union a b).1 := by
  unfold Linker.union
  split
  · rename_i uf s t h
    rw [recordContradiction_uf, h]
  · rename_i uf o h
    rw [h]

theorem union_stands {l : Linker} {p : Partition String String} (h : l.uf.Stands p) (e : String × String) :
    (l.union e.1 e.2).uf.Stands (p.step e) := by
  rw [linker_union_uf]
  exact (UnionFind.union_stands h e.1 e.2).1

/-- **The components the passes leave are the clusters.** -/
theorem passes_stands (t : Task) (edges : List (String × String)) : (passes t edges).uf.Stands (clusters t edges) := by
  induction edges using List.reverseRecOn with
  | nil => exact seeded_stands t.mentions
  | append_singleton es e ih =>
    rw [passes, List.foldl_append, clusters, Partition.steps_append]
    exact union_stands ih e

theorem find_eq_iff (t : Task) (edges : List (String × String)) (x y : String) :
    (passes t edges).find x = (passes t edges).find y ↔ (clusters t edges).rel x y :=
  UnionFind.find_eq_iff (passes_stands t edges) x y

theorem find_find (t : Task) (edges : List (String × String)) (x : String) :
    (passes t edges).find ((passes t edges).find x) = (passes t edges).find x := by
  obtain ⟨root, hf, -, -⟩ := passes_stands t edges
  unfold Linker.find
  rw [(UnionFind.find_spec hf _).1, (UnionFind.find_spec hf x).1, hf.root_root]

theorem seedOf_eq (t : Task) (edges : List (String × String)) (x : String) :
    (passes t edges).seedOf x = (clusters t edges).seed x :=
  UnionFind.seed_find (passes_stands t edges) x

theorem seedOf_find (t : Task) (edges : List (String × String)) (x : String) :
    (passes t edges).seedOf ((passes t edges).find x) = (clusters t edges).seed x := by
  rw [← seedOf_eq, Linker.seedOf, find_find]
  rfl

/-! ## Contradictions -/

/-- A contradiction between the two is recorded. -/
def Contradicts (cs : List Contradiction) (s r : String) : Prop :=
  ∃ c ∈ cs, (c.subjectRef = s ∧ c.contradictingRef = r) ∨ (c.subjectRef = r ∧ c.contradictingRef = s)

/-- The edge meets two clusters that the two entities seed. -/
def MeetsSeeds (p : Partition String String) (e : String × String) (s r : String) : Prop :=
  s ≠ r ∧ ((p.seed e.1 = some s ∧ p.seed e.2 = some r) ∨ (p.seed e.1 = some r ∧ p.seed e.2 = some s))

/-- Some edge, when it is considered, meets two clusters that the two entities seed. -/
def EdgeMeetsSeeds (t : Task) (edges : List (String × String)) (s r : String) : Prop :=
  ∃ pre e post, edges = pre ++ e :: post ∧ MeetsSeeds (clusters t pre) e s r

/-- The pair in order. -/
def pairKey (s r : String) : String × String := if s ≤ r then (s, r) else (r, s)

theorem pairKey_eq_iff {s r s' r' : String} : pairKey s r = pairKey s' r' ↔ (s = s' ∧ r = r') ∨ (s = r' ∧ r = s') := by
  unfold pairKey
  constructor
  · intro h
    split at h <;> split at h <;> cases h
    · exact .inl ⟨rfl, rfl⟩
    · exact .inr ⟨rfl, rfl⟩
    · exact .inr ⟨rfl, rfl⟩
    · exact .inl ⟨rfl, rfl⟩
  · rintro (⟨rfl, rfl⟩ | ⟨rfl, rfl⟩)
    · rfl
    · split <;> split
      · rename_i h h'
        rw [le_antisymm h h']
      · rfl
      · rfl
      · rename_i h h'
        exact absurd (le_total s r) (not_or.2 ⟨h, h'⟩)

/-- `_contradiction_seen` holds the pairs that are recorded. -/
def SeenKept (l : Linker) : Prop := ∀ s r, pairKey s r ∈ l.seen ↔ Contradicts l.contradictions s r

theorem contradicts_append {cs : List Contradiction} {c : Contradiction} {s r : String} :
    Contradicts (cs ++ [c]) s r ↔ Contradicts cs s r ∨ pairKey s r = pairKey c.subjectRef c.contradictingRef := by
  unfold Contradicts
  rw [pairKey_eq_iff]
  constructor
  · rintro ⟨c', hc, h⟩
    rcases List.mem_append.1 hc with hc | hc
    · exact .inl ⟨c', hc, h⟩
    · cases List.mem_singleton.1 hc
      exact .inr (h.imp (And.imp Eq.symm Eq.symm) fun ⟨h1, h2⟩ => ⟨h2.symm, h1.symm⟩)
  · rintro (⟨c', hc, h⟩ | h)
    · exact ⟨c', List.mem_append_left _ hc, h⟩
    · exact ⟨c, List.mem_append_right _ (List.mem_singleton_self c), h.imp (And.imp Eq.symm Eq.symm) fun ⟨h1, h2⟩ => ⟨h2.symm, h1.symm⟩⟩

/-- A contradiction is recorded once, whichever way round. -/
theorem record_spec {l : Linker} (h : SeenKept l) (a b ref : String) : SeenKept (l.recordContradiction a b ref) ∧
    ∀ s r, Contradicts (l.recordContradiction a b ref).contradictions s r ↔
      Contradicts l.contradictions s r ∨ pairKey s r = pairKey a b := by
  unfold Linker.recordContradiction
  dsimp only
  change SeenKept (if l.seen.contains (pairKey a b) = true then l else _) ∧ _
  have hkey : (if a ≤ b then (a, b) else (b, a)) = pairKey a b := rfl
  rw [hkey]
  split
  · rename_i hseen
    refine ⟨h, fun s r => ⟨.inl, fun hs => ?_⟩⟩
    rcases hs with hs | hs
    · exact hs
    · exact (h s r).1 (hs ▸ List.contains_iff_mem.1 hseen)
  · refine ⟨fun s r => ?_, fun s r => contradicts_append⟩
    rw [contradicts_append, List.mem_append, List.mem_singleton, h s r]

theorem linker_union_spec {l : Linker} {p : Partition String String} (hu : l.uf.Stands p) (h : SeenKept l) (e : String × String) :
    SeenKept (l.union e.1 e.2) ∧ ∀ s r, Contradicts (l.union e.1 e.2).contradictions s r ↔
      Contradicts l.contradictions s r ∨ MeetsSeeds p e s r := by
  have hout := (UnionFind.union_stands hu e.1 e.2).2
  -- an edge that finds no conflict meets no two seeds
  have quiet : ¬ p.Conflict e.1 e.2 → ∀ s r, ¬ MeetsSeeds p e s r := by
    rintro hc s r ⟨hne, ⟨h1, h2⟩ | ⟨h1, h2⟩⟩
    · exact hc ⟨s, r, h1, h2, hne⟩
    · exact hc ⟨r, s, h1, h2, hne.symm⟩
  have same : ¬ p.Conflict e.1 e.2 → ∀ l' : Linker, l'.contradictions = l.contradictions → l'.seen = l.seen →
      SeenKept l' ∧ ∀ s r, Contradicts l'.contradictions s r ↔ Contradicts l.contradictions s r ∨ MeetsSeeds p e s r := by
    intro hc l' hcs hseen
    refine ⟨fun s r => by rw [hcs, hseen]; exact h s r, fun s r => ?_⟩
    rw [hcs]
    exact ⟨.inl, fun hs => hs.resolve_right (quiet hc s r)⟩
  unfold Linker.union
  generalize l.uf.union e.1 e.2 = res at hout ⊢
  obtain ⟨uf, outcome⟩ := res
  cases outcome with
  | same =>
    refine same ?_ _ rfl rfl
    rintro ⟨s, r, h1, h2, hne⟩
    rw [p.seed_eq hout, h2] at h1
    exact hne (Option.some.inj h1).symm
  | merged => exact same hout.2 _ rfl rfl
  | conflict a b =>
    obtain ⟨h1, h2, hne⟩ := hout
    have hkept : SeenKept { l with uf := uf } := h
    obtain ⟨hseen, hspec⟩ := record_spec hkept a b e.1
    refine ⟨hseen, fun s r => (hspec s r).trans (or_congr Iff.rfl ?_)⟩
    rw [pairKey_eq_iff]
    constructor
    · rintro (⟨rfl, rfl⟩ | ⟨rfl, rfl⟩)
      · exact ⟨hne, .inl ⟨h1, h2⟩⟩
      · exact ⟨hne.symm, .inr ⟨h1, h2⟩⟩
    · rintro ⟨-, ⟨h1', h2'⟩ | ⟨h1', h2'⟩⟩
      · exact .inl ⟨Option.some.inj (h1'.symm.trans h1), Option.some.inj (h2'.symm.trans h2)⟩
      · exact .inr ⟨Option.some.inj (h2'.symm.trans h2), Option.some.inj (h1'.symm.trans h1)⟩

theorem seedWith_kept (l : Linker) (m : SourceMention) :
    (l.seedWith m).contradictions = l.contradictions ∧ (l.seedWith m).seen = l.seen := by
  unfold Linker.seedWith
  split
  · exact ⟨rfl, rfl⟩
  · exact ⟨rfl, rfl⟩

theorem seeded_kept (ms : List SourceMention) :
    (ms.foldl Linker.seedWith {}).contradictions = [] ∧ (ms.foldl Linker.seedWith {}).seen = [] := by
  induction ms using List.reverseRecOn with
  | nil => exact ⟨rfl, rfl⟩
  | append_singleton ms m ih =>
    rw [List.foldl_append]
    obtain ⟨h1, h2⟩ := seedWith_kept (ms.foldl Linker.seedWith {}) m
    exact ⟨h1.trans ih.1, h2.trans ih.2⟩

/-- **The contradictions are the considered edges that met two seeds.** -/
theorem passes_contradicts (t : Task) (edges : List (String × String)) : SeenKept (passes t edges) ∧
    ∀ s r, Contradicts (passes t edges).contradictions s r ↔ EdgeMeetsSeeds t edges s r := by
  induction edges using List.reverseRecOn with
  | nil =>
    obtain ⟨hcs, hseen⟩ := seeded_kept t.mentions
    constructor
    · intro s r
      change pairKey s r ∈ (t.mentions.foldl Linker.seedWith {}).seen ↔
        Contradicts (t.mentions.foldl Linker.seedWith {}).contradictions s r
      rw [hcs, hseen]
      simp [Contradicts]
    · intro s r
      change Contradicts (t.mentions.foldl Linker.seedWith {}).contradictions s r ↔ _
      rw [hcs]
      constructor
      · rintro ⟨c, hc, -⟩
        cases hc
      · rintro ⟨pre, e, post, he, -⟩
        simp at he
  | append_singleton es e ih =>
    have hpass : passes t (es ++ [e]) = (passes t es).union e.1 e.2 := by rw [passes, List.foldl_append]; rfl
    obtain ⟨hseen, hspec⟩ := linker_union_spec (passes_stands t es) ih.1 e
    rw [hpass]
    refine ⟨hseen, fun s r => (hspec s r).trans ?_⟩
    rw [ih.2 s r]
    constructor
    · rintro (⟨pre, e', post, rfl, hm⟩ | hm)
      · exact ⟨pre, e', post ++ [e], by simp, hm⟩
      · exact ⟨es, e, [], rfl, hm⟩
    · rintro ⟨pre, e', post, he, hm⟩
      rcases List.eq_nil_or_concat' post with rfl | ⟨post, x, rfl⟩
      · obtain ⟨hes, hlast⟩ := List.append_inj' he rfl
        rw [hes, List.singleton_inj.1 hlast]
        exact .inr hm
      · have hsplit : es ++ [e] = (pre ++ e' :: post) ++ [x] := by rw [he, List.append_assoc, List.cons_append]
        obtain ⟨rfl, -⟩ := List.append_inj' hsplit rfl
        exact .inl ⟨pre, e', post, rfl, hm⟩

/-! ## What becomes of a component -/

namespace Linked

variable (u : Unicode) (setOrder : List String → List String) (l : Linked) (t : Task)

/-- The component stays unresolved: it carries no entity, and is an ambiguous mention alone or derives a ref that
another one derives. -/
def Stays (root : String) : Prop :=
  l.linker.seedOf root = none ∧
    ((∃ m, l.members t root = [m] ∧ shouldStayUnresolved (mentionById t.mentions) m (l.candidatesOf m.mentionId) = true) ∨
      l.collided u t (clusterRef u t (l.members t root)) = true)

/-- The ref a component is established under. -/
def refOf (root : String) : String := (l.linker.seedOf root).getD (clusterRef u t (l.members t root))

theorem mem_members {root : String} {m : SourceMention} :
    m ∈ l.members t root ↔ m ∈ t.mentions ∧ l.linker.find m.mentionId = root := by
  rw [members, sortedById, List.mem_insertionSort, List.mem_filter, decide_eq_true_eq]

theorem mem_roots {root : String} : root ∈ l.roots t ↔ ∃ m ∈ t.mentions, l.linker.find m.mentionId = root := by
  rw [roots, mem_firsts, List.mem_map]

theorem sortedRoots_perm : (l.sortedRoots t).Perm (l.roots t) := List.perm_insertionSort _ _

theorem mem_sortedRoots {root : String} : root ∈ l.sortedRoots t ↔ ∃ m ∈ t.mentions, l.linker.find m.mentionId = root := by
  rw [(l.sortedRoots_perm t).mem_iff, mem_roots]

/-- A component that does not stay unresolved is established. -/
theorem decideRoot_established {root : String} (h : ¬ l.Stays u t root) :
    l.decideRoot u setOrder t root = establish u setOrder t (l.members t root) (l.linker.seedOf root) := by
  unfold decideRoot
  dsimp only
  split
  · rename_i single hm hs
    rw [if_neg fun hu => h ⟨hs, .inl ⟨single, hm, hu⟩⟩, if_neg fun hc => h ⟨hs, .inr (hm ▸ hc)⟩, hm, hs]
  · rename_i hs _
    rw [if_neg fun hc => h ⟨hs, .inr hc⟩, hs]
  · rename_i seed hs
    rw [hs]

/-- One that stays adds its members to the unresolved ones and nothing else. -/
theorem decideRoot_stays {root : String} (h : l.Stays u t root) :
    (l.decideRoot u setOrder t root).unresolved.map (·.mentionId) = (l.members t root).map (·.mentionId) ∧
      (l.decideRoot u setOrder t root).assignments = [] ∧ (l.decideRoot u setOrder t root).entities = [] ∧
      (l.decideRoot u setOrder t root).commands = [] := by
  have collidedIds : ∀ ms : List SourceMention, (ms.map collidedMention).map (·.mentionId) = ms.map (·.mentionId) := by
    intro ms
    rw [List.map_map]
    rfl
  obtain ⟨hseed, hwhy⟩ := h
  unfold decideRoot
  dsimp only
  split
  · rename_i single hm hs
    split
    · rw [hm]
      exact ⟨rfl, rfl, rfl, rfl⟩
    · rename_i hstay
      have hc : l.collided u t (clusterRef u t [single]) = true := by
        rcases hwhy with ⟨m, hm', hstay'⟩ | hc
        · rw [hm] at hm'
          cases hm'
          exact absurd hstay' hstay
        · exact hm ▸ hc
      rw [if_pos hc, hm]
      exact ⟨rfl, rfl, rfl, rfl⟩
  · rename_i hs hone
    have hc : l.collided u t (clusterRef u t (l.members t root)) = true := by
      rcases hwhy with ⟨m, hm, -⟩ | hc
      · exact (hone m hm).elim
      · exact hc
    rw [if_pos hc]
    exact ⟨collidedIds _, rfl, rfl, rfl⟩
  · rename_i seed hs
    rw [hseed] at hs
    cases hs

theorem mem_establish_assignments {members : List SourceMention} {seed : Option String} {id ref : String} :
    (id, ref) ∈ (establish u setOrder t members seed).assignments ↔
      (∃ m ∈ members, m.mentionId = id) ∧ ref = seed.getD (clusterRef u t members) := by
  change (id, ref) ∈ (members.map (·.mentionId)).map (fun id => (id, seed.getD (clusterRef u t members))) ↔ _
  rw [List.mem_map]
  constructor
  · rintro ⟨id', hid, he⟩
    cases he
    exact ⟨List.mem_map.1 hid, rfl⟩
  · rintro ⟨hm, rfl⟩
    exact ⟨id, List.mem_map.2 hm, rfl⟩

/-- **An assignment is of a mention whose component is established, to the ref of that component.** -/
theorem mem_assignments {id ref : String} :
    (id, ref) ∈ ((l.sortedRoots t).map (l.decideRoot u setOrder t)).flatMap (·.assignments) ↔
      (∃ m ∈ t.mentions, m.mentionId = id) ∧ ¬ l.Stays u t (l.linker.find id) ∧ ref = l.refOf u t (l.linker.find id) := by
  rw [List.mem_flatMap]
  constructor
  · rintro ⟨d, hd, hin⟩
    obtain ⟨root, -, rfl⟩ := List.mem_map.1 hd
    by_cases hs : l.Stays u t root
    · rw [(l.decideRoot_stays u setOrder t hs).2.1] at hin
      cases hin
    · rw [l.decideRoot_established u setOrder t hs, mem_establish_assignments] at hin
      obtain ⟨⟨m, hm, rfl⟩, rfl⟩ := hin
      obtain ⟨hmem, rfl⟩ := (l.mem_members t).1 hm
      exact ⟨⟨m, hmem, rfl⟩, hs, rfl⟩
  · rintro ⟨⟨m, hm, rfl⟩, hs, rfl⟩
    refine ⟨_, List.mem_map.2 ⟨_, (l.mem_sortedRoots t).2 ⟨m, hm, rfl⟩, rfl⟩, ?_⟩
    rw [l.decideRoot_established u setOrder t hs, mem_establish_assignments]
    exact ⟨⟨m, (l.mem_members t).2 ⟨hm, rfl⟩, rfl⟩, rfl⟩

theorem mem_unresolved {id : String} :
    id ∈ (((l.sortedRoots t).map (l.decideRoot u setOrder t)).flatMap (·.unresolved)).map (·.mentionId) ↔
      (∃ m ∈ t.mentions, m.mentionId = id) ∧ l.Stays u t (l.linker.find id) := by
  rw [List.map_flatMap, List.mem_flatMap]
  constructor
  · rintro ⟨d, hd, hin⟩
    obtain ⟨root, -, rfl⟩ := List.mem_map.1 hd
    by_cases hs : l.Stays u t root
    · rw [(l.decideRoot_stays u setOrder t hs).1, List.mem_map] at hin
      obtain ⟨m, hm, rfl⟩ := hin
      obtain ⟨hmem, rfl⟩ := (l.mem_members t).1 hm
      exact ⟨⟨m, hmem, rfl⟩, hs⟩
    · rw [l.decideRoot_established u setOrder t hs] at hin
      cases hin
  · rintro ⟨⟨m, hm, rfl⟩, hs⟩
    refine ⟨_, List.mem_map.2 ⟨_, (l.mem_sortedRoots t).2 ⟨m, hm, rfl⟩, rfl⟩, ?_⟩
    rw [(l.decideRoot_stays u setOrder t hs).1, List.mem_map]
    exact ⟨m, (l.mem_members t).2 ⟨hm, rfl⟩, rfl⟩

end Linked

/-! ## The batch -/

section
variable {u : Unicode} {setOrder : List String → List String} {policy : CandidatePolicy} {floor : ℚ} {t : Task}
  {batch : ResolutionBatch}

/-- What a batch is made of: hits, edges and the decisions on the components they leave. -/
theorem resolveMentions_ok (h : resolveMentions u setOrder policy floor t = .ok batch) : ∃ hits edges,
    allHits u policy t = .ok hits ∧ consideredEdges u floor t hits = .ok edges ∧
      batch = batchOf t (passes t edges)
        (((Linked.mk hits (passes t edges)).sortedRoots t).map ((Linked.mk hits (passes t edges)).decideRoot u setOrder t)) := by
  unfold resolveMentions at h
  cases hh : allHits u policy t with
  | error e => rw [hh] at h; cases h
  | ok hits =>
    cases he : consideredEdges u floor t hits with
    | error e => rw [hh] at h; simp only [bind, Except.bind, he] at h; cases h
    | ok edges =>
      rw [hh] at h
      simp only [bind, Except.bind, he, pure, Except.pure] at h
      cases h
      exact ⟨hits, edges, rfl, he, rfl⟩

/-- Where every pair of a key has one value, it is the value of the key. -/
theorem lastValue_all {pairs : List (String × String)} {k v : String} (hm : (k, v) ∈ pairs)
    (hall : ∀ w, (k, w) ∈ pairs → w = v) : lastValue pairs k = some v := by
  obtain ⟨w, hw⟩ := lastValue_isSome (List.mem_map.2 ⟨_, hm, rfl⟩)
  rw [hw, hall w (lastValue_mem hw)]

/-- A mention of a list without repeated ids carries what is carried under its id. -/
theorem carried_eq {ms : List SourceMention} (hn : (ms.map (·.mentionId)).Nodup) {m : SourceMention} (hm : m ∈ ms) :
    carried ms m.mentionId = nonEmpty m.entityId := by
  have hfilter : ms.filter (·.mentionId = m.mentionId) = [m] := by
    induction ms with
    | nil => cases hm
    | cons x ms ih =>
      rw [List.map_cons, List.nodup_cons] at hn
      rcases List.mem_cons.1 hm with rfl | hm
      · rw [List.filter_cons_of_pos (by simp)]
        have hnone : ms.filter (·.mentionId = m.mentionId) = [] :=
          List.filter_eq_nil_iff.2 fun y hy he => hn.1 (List.mem_map.2 ⟨y, hy, of_decide_eq_true he⟩)
        rw [hnone]
      · rw [List.filter_cons_of_neg fun he => hn.1 (List.mem_map.2 ⟨m, hm, (of_decide_eq_true he).symm⟩)]
        exact ih hn.2 hm
  rw [carried, hfilter, List.findSome?_cons]
  cases nonEmpty m.entityId <;> rfl

/-- A mention that carries an entity is in a cluster of that entity. -/
theorem clusters_seed (hn : (t.mentions.map (·.mentionId)).Nodup) (edges : List (String × String)) {m : SourceMention}
    (hm : m ∈ t.mentions) {e : String} (he : nonEmpty m.entityId = some e) : (clusters t edges).seed m.mentionId = some e :=
  Partition.steps_seed edges ((carried_eq hn hm).trans he)

/-- **Every mention is assigned or unresolved and not both, one that carries an entity is assigned to it, so no two that
carry different ones to the same, and the contradictions are the edges that met two seeds.** -/
theorem mentions_resolved (hn : (t.mentions.map (·.mentionId)).Nodup) (h : resolveMentions u setOrder policy floor t = .ok batch) :
    (∀ m ∈ t.mentions, Xor ((lastValue batch.assignments m.mentionId).isSome = true)
      (m.mentionId ∈ batch.unresolved.map (·.mentionId))) ∧
    (∀ m ∈ t.mentions, ∀ e, nonEmpty m.entityId = some e → lastValue batch.assignments m.mentionId = some e) ∧
    (∀ m ∈ t.mentions, ∀ m' ∈ t.mentions, ∀ e e', nonEmpty m.entityId = some e → nonEmpty m'.entityId = some e' → e ≠ e' →
      lastValue batch.assignments m.mentionId ≠ lastValue batch.assignments m'.mentionId) ∧
    ∃ hits edges, allHits u policy t = .ok hits ∧ consideredEdges u floor t hits = .ok edges ∧
      ∀ s r, Contradicts batch.contradictions s r ↔ EdgeMeetsSeeds t edges s r := by
  obtain ⟨hits, edges, hh, he, rfl⟩ := resolveMentions_ok h
  have hseeded : ∀ m ∈ t.mentions, ∀ e, nonEmpty m.entityId = some e →
      lastValue (((Linked.mk hits (passes t edges)).sortedRoots t).map
        ((Linked.mk hits (passes t edges)).decideRoot u setOrder t) |>.flatMap (·.assignments)) m.mentionId = some e := by
    intro m hm e hme
    have hseed : (passes t edges).seedOf ((passes t edges).find m.mentionId) = some e := by
      rw [seedOf_find, clusters_seed hn edges hm hme]
    have href : (Linked.mk hits (passes t edges)).refOf u t ((passes t edges).find m.mentionId) = e := by
      rw [Linked.refOf, hseed]
      rfl
    refine lastValue_all ((Linked.mem_assignments u setOrder _ t).2 ⟨⟨m, hm, rfl⟩, fun hs => ?_, href.symm⟩) fun w hw => ?_
    · rw [hs.1] at hseed
      cases hseed
    · exact ((Linked.mem_assignments u setOrder _ t).1 hw).2.2.trans href
  refine ⟨fun m hm => ?_, hseeded, fun m hm m' hm' e e' h1 h2 hne heq => ?_, hits, edges, hh, he, (passes_contradicts t edges).2⟩
  · by_cases hs : (Linked.mk hits (passes t edges)).Stays u t ((passes t edges).find m.mentionId)
    · refine .inr ⟨(Linked.mem_unresolved u setOrder _ t).2 ⟨⟨m, hm, rfl⟩, hs⟩, fun hsome => ?_⟩
      obtain ⟨ref, href⟩ := Option.isSome_iff_exists.1 hsome
      exact ((Linked.mem_assignments u setOrder _ t).1 (lastValue_mem href)).2.1 hs
    · refine .inl ⟨?_, fun hu => hs ((Linked.mem_unresolved u setOrder _ t).1 hu).2⟩
      have hin := (Linked.mem_assignments u setOrder ⟨hits, passes t edges⟩ t).2 ⟨⟨m, hm, rfl⟩, hs, rfl⟩
      obtain ⟨ref, href⟩ := lastValue_isSome (List.mem_map.2 ⟨_, hin, rfl⟩)
      exact Option.isSome_iff_exists.2 ⟨ref, href⟩
  · have heq' := (hseeded m hm e h1).symm.trans (heq.trans (hseeded m' hm' e' h2))
    exact hne (Option.some.inj heq')

/-- A text that is its own normal form. -/
def plain : Unicode := ⟨id, id, id, fun _ => false, Char.isAlphanum⟩

/-- Three mentions of one name, of which the last carries another entity than the first. -/
def annas : Task :=
  listTask [⟨"m1", "source:1", none, some "E", "anna", [], none, none, "CONFIRMED", none, [], [], [], none, none, none⟩,
    ⟨"m2", "source:1", none, none, "anna", [], none, none, "UNKNOWN", none, [], [], [], none, none, none⟩,
    ⟨"m3", "source:2", none, some "F", "anna", [], none, none, "CONFIRMED", none, [], [], [], none, none, none⟩] []

theorem mentions_resolved_annas : ∃ batch, resolveMentions plain id {} (1 / 2) annas = .ok batch ∧
    lastValue batch.assignments "m1" = some "E" ∧ lastValue batch.assignments "m3" = some "F" ∧
    ∀ m ∈ annas.mentions, Xor ((lastValue batch.assignments m.mentionId).isSome = true)
      (m.mentionId ∈ batch.unresolved.map (·.mentionId)) := by
  cases h : resolveMentions plain id {} (1 / 2) annas with
  | error e =>
    have hok : (resolveMentions plain id {} (1 / 2) annas).toOption.isSome = true := by decide +kernel
    rw [h] at hok
    cases hok
  | ok batch =>
    have hn : (annas.mentions.map (·.mentionId)).Nodup := by decide
    obtain ⟨honce, hseeded, -⟩ := mentions_resolved hn h
    exact ⟨batch, rfl, hseeded _ (.head _) "E" rfl, hseeded _ (.tail _ (.tail _ (.head _))) "F" rfl, honce⟩

end

end Umd.Resolution
