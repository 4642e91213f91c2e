import Umd.Resolution.Clusters
/-!
# One canonical entity for a ref

A cluster is established under the entity it carries, or under the ref its evidence
derives. Only the derived refs are compared with each other. Two clusters that carry
one entity are both established under it, and so is one that derives the entity of
another.
-/

namespace Umd.Resolution

open Umd.Lib Umd.Reducer Umd.Projections

/-! ## The clusters as lists -/

open Classical in
/-- The mentions of the cluster an id is in, by their ids. -/
noncomputable def clusterOf (t : Task) (edges : List (String × String)) (id : String) : List SourceMention :=
  sortedById (t.mentions.filter fun m => (clusters t edges).rel id m.mentionId)

theorem members_eq (t : Task) (hits : List (String × List MentionCandidate)) (edges : List (String × String)) (id : String) :
    (Linked.mk hits (passes t edges)).members t ((passes t edges).find id) = clusterOf t edges id := by
  unfold Linked.members clusterOf
  congr 2
  funext m
  apply decide_eq_decide.2
  rw [← find_eq_iff]
  exact eq_comm

theorem mem_clusterOf {t : Task} {edges : List (String × String)} {id : String} {m : SourceMention} :
    m ∈ clusterOf t edges id ↔ m ∈ t.mentions ∧ (clusters t edges).rel id m.mentionId := by
  classical
  rw [clusterOf, sortedById, List.mem_insertionSort, List.mem_filter, decide_eq_true_eq]

/-- A seed is carried by a mention of the cluster. -/
theorem carried_mention {ms : List SourceMention} {id e : String} (h : carried ms id = some e) : ∃ m ∈ ms, m.mentionId = id := by
  obtain ⟨m, hm, -⟩ := List.exists_of_findSome?_eq_some h
  exact ⟨m, (List.mem_filter.1 hm).1, of_decide_eq_true (List.mem_filter.1 hm).2⟩

theorem seed_carried {t : Task} {edges : List (String × String)} {id e : String} (h : (clusters t edges).seed id = some e) :
    ∃ m ∈ t.mentions, (clusters t edges).rel id m.mentionId ∧ carried t.mentions m.mentionId = some e := by
  obtain ⟨y, hrel, hy⟩ := Partition.steps_seed_of edges h
  obtain ⟨m, hm, rfl⟩ := carried_mention hy
  exact ⟨m, hm, hrel, hy⟩

theorem carried_seed {t : Task} (edges : List (String × String)) {id e : String} (h : carried t.mentions id = some e) :
    (clusters t edges).seed id = some e := Partition.steps_seed edges h

section
variable (u : Unicode) (t : Task) (hits : List (String × List MentionCandidate)) (edges : List (String × String))

/-- The ref the evidence of a cluster derives. -/
noncomputable def derivedRef (id : String) : String := clusterRef u t (clusterOf t edges id)

/-- The cluster stays unresolved: it carries no entity, and is an ambiguous mention alone or derives the ref that
another one without entity derives. -/
def StaysOut (id : String) : Prop :=
  (clusters t edges).seed id = none ∧
    ((∃ m, clusterOf t edges id = [m] ∧
        shouldStayUnresolved (mentionById t.mentions) m ((lastValue hits m.mentionId).getD []) = true) ∨
      ∃ m ∈ t.mentions, (clusters t edges).seed m.mentionId = none ∧ ¬ (clusters t edges).rel id m.mentionId ∧
        derivedRef u t edges m.mentionId = derivedRef u t edges id)

end

/-! ## Collisions -/

/-- A value that comes more than once is the value of another element too. -/
theorem one_lt_count_map {α β : Type} [DecidableEq β] {f : α → β} {xs : List α} (hn : xs.Nodup) {a : α} (ha : a ∈ xs) :
    1 < (xs.map f).count (f a) ↔ ∃ b ∈ xs, b ≠ a ∧ f b = f a := by
  classical
  obtain ⟨ys, zs, rfl⟩ := List.append_of_mem ha
  have hperm : (ys ++ a :: zs).Perm (a :: (ys ++ zs)) := List.perm_middle
  have hnot : a ∉ ys ++ zs := (List.nodup_cons.1 (hperm.nodup_iff.1 hn)).1
  rw [(hperm.map f).count_eq, List.map_cons, List.count_cons_self, Nat.lt_add_left_iff_pos, List.count_pos_iff, List.mem_map]
  constructor
  · rintro ⟨b, hb, hf⟩
    exact ⟨b, hperm.mem_iff.2 (List.mem_cons_of_mem _ hb), fun he => hnot (he ▸ hb), hf⟩
  · rintro ⟨b, hb, hne, hf⟩
    exact ⟨b, (List.mem_cons.1 (hperm.mem_iff.1 hb)).resolve_left hne, hf⟩

section
variable (u : Unicode) {t : Task} {hits : List (String × List MentionCandidate)} {edges : List (String × String)}

theorem collided_iff {m : SourceMention} (hm : m ∈ t.mentions) (hnone : (clusters t edges).seed m.mentionId = none) :
    (Linked.mk hits (passes t edges)).collided u t (derivedRef u t edges m.mentionId) = true ↔
      ∃ m' ∈ t.mentions, (clusters t edges).seed m'.mentionId = none ∧ ¬ (clusters t edges).rel m.mentionId m'.mentionId ∧
        derivedRef u t edges m'.mentionId = derivedRef u t edges m.mentionId := by
  set l : Linked := ⟨hits, passes t edges⟩ with hl
  set unseeded := (l.roots t).filter fun root => l.linker.seedOf root = none with hunseeded
  have hmem : ∀ {root}, root ∈ unseeded ↔ ∃ m' ∈ t.mentions, l.linker.find m'.mentionId = root ∧
      (clusters t edges).seed m'.mentionId = none := by
    intro root
    rw [hunseeded, List.mem_filter, l.mem_roots, decide_eq_true_eq]
    constructor
    · rintro ⟨⟨m', hm', rfl⟩, hs⟩
      exact ⟨m', hm', rfl, (seedOf_find t edges m'.mentionId).symm.trans hs⟩
    · rintro ⟨m', hm', rfl, hs⟩
      exact ⟨⟨m', hm', rfl⟩, (seedOf_find t edges m'.mentionId).trans hs⟩
  have hn : unseeded.Nodup := (nodup_firsts _).filter _
  have hat : ∀ id, clusterRef u t (l.members t (l.linker.find id)) = derivedRef u t edges id := by
    intro id
    rw [derivedRef, ← members_eq t hits edges id]
  change decide (1 < (unseeded.map fun root => clusterRef u t (l.members t root)).count _) = true ↔ _
  rw [decide_eq_true_eq, ← hat m.mentionId,
    one_lt_count_map (f := fun root => clusterRef u t (l.members t root)) hn (hmem.2 ⟨m, hm, rfl, hnone⟩)]
  constructor
  · rintro ⟨root, hroot, hne, hf⟩
    obtain ⟨m', hm', rfl, hs⟩ := hmem.1 hroot
    refine ⟨m', hm', hs, fun hrel => hne ((find_eq_iff t edges _ _).2 ?_), ?_⟩
    · exact (clusters t edges).equiv.symm hrel
    · rw [← hat, hf]
  · rintro ⟨m', hm', hs, hrel, hf⟩
    refine ⟨_, hmem.2 ⟨m', hm', rfl, hs⟩, fun he => hrel ?_, ?_⟩
    · exact (clusters t edges).equiv.symm ((find_eq_iff t edges _ _).1 he)
    · rw [hat, hf, hat]

theorem stays_iff {m : SourceMention} (hm : m ∈ t.mentions) :
    (Linked.mk hits (passes t edges)).Stays u t ((passes t edges).find m.mentionId) ↔ StaysOut u t hits edges m.mentionId := by
  unfold Linked.Stays StaysOut
  rw [members_eq t hits edges, seedOf_find t edges]
  refine and_congr_right fun hnone => or_congr Iff.rfl ?_
  exact collided_iff u hm hnone

end

/-! ## The refs of a batch -/

/-- The refs that are established. -/
def establishedRefs (cs : List ResolutionCommand) : List String := (cs.filter (·.kind = "ESTABLISH")).map (·.entityId)

/-- A ref is one entity's and is established once. -/
def OneEach (b : ResolutionBatch) : Prop := (b.canonicalEntities.map (·.ref)).Nodup ∧ (establishedRefs b.commands).Nodup

theorem establishedRefs_append (cs cs' : List ResolutionCommand) :
    establishedRefs (cs ++ cs') = establishedRefs cs ++ establishedRefs cs' := by
  rw [establishedRefs, List.filter_append, List.map_append]
  rfl

section
variable (u : Unicode) (setOrder : List String → List String) (t : Task)

/-- What is established for a cluster is one entity and one command, under one ref. -/
theorem establish_refs (members : List SourceMention) (seed : Option String) :
    (establish u setOrder t members seed).entities.map (·.ref) = [seed.getD (clusterRef u t members)] ∧
      establishedRefs (establish u setOrder t members seed).commands = [seed.getD (clusterRef u t members)] := by
  refine ⟨rfl, ?_⟩
  have hrest : ∀ ref label first, establishedRefs (members.flatMap (memberCommands ref label first)) = [] := by
    intro ref label first
    rw [establishedRefs, List.map_eq_nil_iff, List.filter_eq_nil_iff]
    intro c hc
    obtain ⟨m, -, hm⟩ := List.mem_flatMap.1 hc
    unfold memberCommands at hm
    split at hm
    · rcases List.mem_cons.1 hm with rfl | hm
      · simp
      · rw [List.mem_singleton.1 hm]
        simp
    · rw [List.mem_singleton.1 hm]
      simp
  change establishedRefs (_ :: _) = _
  rw [establishedRefs, List.filter_cons_of_pos (by rfl), List.map_cons]
  exact congrArg _ (hrest _ _ _)

open Classical in
/-- The refs of a batch are those of the components that do not stay. -/
theorem decided_refs (l : Linked) (roots : List String) :
    ((roots.map (l.decideRoot u setOrder t)).flatMap (·.entities)).map (·.ref) =
        (roots.filter fun root => ¬ l.Stays u t root).map (l.refOf u t) ∧
      establishedRefs ((roots.map (l.decideRoot u setOrder t)).flatMap (·.commands)) =
        (roots.filter fun root => ¬ l.Stays u t root).map (l.refOf u t) := by
  induction roots with
  | nil => exact ⟨rfl, rfl⟩
  | cons root roots ih =>
    rw [List.map_cons, List.flatMap_cons, List.flatMap_cons, List.map_append, establishedRefs_append, ih.1, ih.2]
    by_cases hs : l.Stays u t root
    · obtain ⟨-, -, hent, hcmd⟩ := l.decideRoot_stays u setOrder t hs
      rw [List.filter_cons_of_neg (by simpa using hs), hent, hcmd]
      exact ⟨rfl, rfl⟩
    · obtain ⟨hent, hcmd⟩ := establish_refs u setOrder t (l.members t root) (l.linker.seedOf root)
      rw [List.filter_cons_of_pos (by simpa using hs), l.decideRoot_established u setOrder t hs, hent, hcmd]
      exact ⟨rfl, rfl⟩

end

/-! ## When there is one -/

/-- The mentions of one entity are in one cluster. -/
def EntitiesJoined (t : Task) (edges : List (String × String)) : Prop :=
  ∀ m ∈ t.mentions, ∀ m' ∈ t.mentions, ∀ e, carried t.mentions m.mentionId = some e →
    carried t.mentions m'.mentionId = some e → (clusters t edges).rel m.mentionId m'.mentionId

/-- A cluster without entity that becomes a canonical one derives the entity that a mention carries. -/
def DerivesCarried (u : Unicode) (t : Task) (hits : List (String × List MentionCandidate)) (edges : List (String × String)) :
    Prop :=
  ∃ m ∈ t.mentions, (clusters t edges).seed m.mentionId = none ∧ ¬ StaysOut u t hits edges m.mentionId ∧
    ∃ m' ∈ t.mentions, carried t.mentions m'.mentionId = some (derivedRef u t edges m.mentionId)

section
variable {u : Unicode} {setOrder : List String → List String} {policy : CandidatePolicy} {floor : ℚ} {t : Task}
  {batch : ResolutionBatch} {hits : List (String × List MentionCandidate)} {edges : List (String × String)}

/-- The refs of two established clusters differ, unless they are one cluster. -/
def RefsApart (u : Unicode) (t : Task) (hits : List (String × List MentionCandidate)) (edges : List (String × String)) : Prop :=
  ∀ m ∈ t.mentions, ∀ m' ∈ t.mentions, ¬ StaysOut u t hits edges m.mentionId → ¬ StaysOut u t hits edges m'.mentionId →
    ((clusters t edges).seed m.mentionId).getD (derivedRef u t edges m.mentionId) =
      ((clusters t edges).seed m'.mentionId).getD (derivedRef u t edges m'.mentionId) →
    (clusters t edges).rel m.mentionId m'.mentionId

theorem refsApart_iff : RefsApart u t hits edges ↔ EntitiesJoined t edges ∧ ¬ DerivesCarried u t hits edges := by
  have seeded : ∀ {id e}, (clusters t edges).seed id = some e → ¬ StaysOut u t hits edges id := by
    intro id e he hs
    rw [hs.1] at he
    cases he
  constructor
  · refine fun h => ⟨fun m hm m' hm' e he he' => ?_, ?_⟩
    · have hs := carried_seed edges he
      have hs' := carried_seed edges he'
      exact h m hm m' hm' (seeded hs) (seeded hs') (by rw [hs, hs', Option.getD_some, Option.getD_some])
    · rintro ⟨m, hm, hnone, hout, m', hm', he⟩
      have hs' := carried_seed edges he
      have hrel := h m hm m' hm' hout (seeded hs') (by rw [hnone, hs', Option.getD_none, Option.getD_some])
      rw [(clusters t edges).seed_eq hrel, hs'] at hnone
      cases hnone
  · rintro ⟨hjoined, hderives⟩ m hm m' hm' hout hout' href
    cases hs : (clusters t edges).seed m.mentionId with
    | some e =>
      obtain ⟨x, hx, hrel, hex⟩ := seed_carried hs
      cases hs' : (clusters t edges).seed m'.mentionId with
      | some e' =>
        obtain ⟨x', hx', hrel', hex'⟩ := seed_carried hs'
        have hee : e = e' := by
          rw [hs, hs'] at href
          exact href
        subst hee
        exact (clusters t edges).equiv.trans hrel
          ((clusters t edges).equiv.trans (hjoined x hx x' hx' e hex hex') ((clusters t edges).equiv.symm hrel'))
      | none =>
        rw [hs, hs'] at href
        exact absurd ⟨m', hm', hs', hout', x, hx, hex.trans (congrArg some href)⟩ hderives
    | none =>
      cases hs' : (clusters t edges).seed m'.mentionId with
      | some e' =>
        obtain ⟨x', hx', -, hex'⟩ := seed_carried hs'
        rw [hs, hs'] at href
        exact absurd ⟨m, hm, hs, hout, x', hx', hex'.trans (congrArg some href.symm)⟩ hderives
      | none =>
        rw [hs, hs'] at href
        by_contra hrel
        exact hout ⟨hs, .inr ⟨m', hm', hs', hrel, href.symm⟩⟩

/-- Two names of one entity. -/
def twoNames : Task :=
  listTask [⟨"m1", "source:1", none, some "E", "anna", [], none, none, "CONFIRMED", none, [], [], [], none, none, none⟩,
    ⟨"m2", "source:1", none, some "E", "old tom", [], none, none, "CONFIRMED", none, [], [], [], none, none, none⟩] []

end

end Umd.Resolution
