import Umd.Resolution.OneCanonical
/-!
# Mentions between two entities

A mention whose best candidates name several existing entities is looked at only when
its cluster is still itself alone. The passes join it before to the first of them, so
that it is left unresolved just when no edge leads from it or to it.
-/

namespace Umd.Resolution

open Umd.Lib Umd.Reducer Umd.Projections

/-- The best candidates of a mention without entity reach the floor and name several entities that mentions carry. -/
def Tied (floor : ℚ) (t : Task) (hits : List (String × List MentionCandidate)) (m : SourceMention) : Prop :=
  nonEmpty m.entityId = none ∧
    ∃ c ∈ (lastValue hits m.mentionId).getD [], ∃ c' ∈ (lastValue hits m.mentionId).getD [],
      c.entityRef ≠ c'.entityRef ∧ floor ≤ c.confidence ∧ c'.confidence = c.confidence ∧
      (∀ d ∈ (lastValue hits m.mentionId).getD [], d.confidence ≤ c.confidence) ∧
      (∃ x ∈ t.mentions, nonEmpty x.entityId = some c.entityRef) ∧ ∃ x ∈ t.mentions, nonEmpty x.entityId = some c'.entityRef

instance (floor : ℚ) (t : Task) (hits : List (String × List MentionCandidate)) (m : SourceMention) :
    Decidable (Tied floor t hits m) := by
  delta Tied
  infer_instance

/-- The mention is not assigned and is among the unresolved ones. -/
def LeftOpen (b : ResolutionBatch) (m : SourceMention) : Prop :=
  lastValue b.assignments m.mentionId = none ∧ m.mentionId ∈ b.unresolved.map (·.mentionId)

/-- No edge leads from the mention to another one or to it. -/
def Unlinked (edges : List (String × String)) (id : String) : Prop := ∀ e ∈ edges, (e.1 = id ↔ e.2 = id)

/-- A mention that is listed once, that no edge reaches and that counts as ambiguous. -/
def AloneAmbiguous (t : Task) (hits : List (String × List MentionCandidate)) (edges : List (String × String))
    (m : SourceMention) : Prop :=
  Unlinked edges m.mentionId ∧ t.mentions.filter (·.mentionId = m.mentionId) = [m] ∧
    shouldStayUnresolved (mentionById t.mentions) m ((lastValue hits m.mentionId).getD []) = true

/-- Its cluster carries no entity, and another such cluster derives the same ref. -/
def SharesRef (u : Unicode) (t : Task) (edges : List (String × String)) (m : SourceMention) : Prop :=
  (clusters t edges).seed m.mentionId = none ∧ ∃ m' ∈ t.mentions, (clusters t edges).seed m'.mentionId = none ∧
    ¬ (clusters t edges).rel m.mentionId m'.mentionId ∧ derivedRef u t edges m'.mentionId = derivedRef u t edges m.mentionId

section
variable {u : Unicode} {setOrder : List String → List String} {policy : CandidatePolicy} {floor : ℚ} {t : Task}
  {batch : ResolutionBatch} {hits : List (String × List MentionCandidate)} {edges : List (String × String)}

/-! ## Edges -/

theorem mem_mentionById {ms : List SourceMention} {m : SourceMention} (h : m ∈ mentionById ms) : m ∈ ms := by
  obtain ⟨id, -, hm⟩ := List.mem_filterMap.1 h
  obtain ⟨x, hx, he⟩ := List.mem_map.1 (lastValue_mem hm)
  cases he
  exact hx

theorem candidateTarget_mem {table : List SourceMention} {ref : String} {x : SourceMention}
    (h : candidateTarget table ref = some x) : x ∈ table := by
  unfold candidateTarget at h
  rcases Option.or_eq_some_iff.1 h with h | ⟨-, h⟩
  · exact List.mem_of_find?_eq_some h
  · exact List.mem_of_find?_eq_some h

/-- What the considered edges are: those of the candidates, then those of the aliases. -/
theorem consideredEdges_ok (h : consideredEdges u floor t hits = .ok edges) : ∃ aliases,
    (sortedById t.mentions).mapM (aliasEdge u (mentionById t.mentions)) = .ok aliases ∧
      edges = ((sortedById t.mentions).flatMap fun m =>
        candidateEdges u floor (mentionById t.mentions) m ((lastValue hits m.mentionId).getD [])) ++ aliases.filterMap id := by
  unfold consideredEdges at h
  dsimp only at h
  cases ha : (sortedById t.mentions).mapM (aliasEdge u (mentionById t.mentions)) with
  | error err => rw [ha] at h; cases h
  | ok aliases =>
    rw [ha] at h
    cases h
    exact ⟨aliases, rfl, rfl⟩

theorem mem_candidateEdges {table : List SourceMention} {m : SourceMention} {cs : List MentionCandidate} {e : String × String}
    (h : e ∈ candidateEdges u floor table m cs) : e.1 = m.mentionId ∧ ∃ x ∈ table, x.mentionId = e.2 := by
  obtain ⟨c, -, hc⟩ := List.mem_filterMap.1 h
  split at hc
  · cases hc
  · split at hc
    · cases hc
    · rename_i target ht
      split at hc
      · cases hc
      · cases hc
        exact ⟨rfl, target, candidateTarget_mem ht, rfl⟩

theorem mem_aliasEdge {table : List SourceMention} {m : SourceMention} {e : String × String}
    (h : aliasEdge u table m = .ok (some e)) : e.1 = m.mentionId ∧ ∃ x ∈ table, x.mentionId = e.2 := by
  unfold aliasEdge at h
  split at h
  · split at h
    · rename_i cn _
      obtain ⟨x, hx, rfl⟩ := Option.map_eq_some_iff.1 (Except.ok.inj h)
      have hfound : x ∈ sortedById (table.filter fun t =>
          t.sourceId = m.sourceId && t.mentionId ≠ m.mentionId && !(canonicalName t).truthy) := by
        rcases Option.or_eq_some_iff.1 hx with hx | ⟨-, hx⟩
        · exact List.mem_of_find?_eq_some hx
        · exact List.mem_of_find?_eq_some hx
      exact ⟨rfl, x, (List.mem_filter.1 ((List.mem_insertionSort _).1 hfound)).1, rfl⟩
    · cases h
  · cases h

/-- The ends of an edge are mentions. -/
theorem edge_ends (h : consideredEdges u floor t hits = .ok edges) {e : String × String} (he : e ∈ edges) :
    (∃ m ∈ t.mentions, m.mentionId = e.1) ∧ ∃ m ∈ t.mentions, m.mentionId = e.2 := by
  have hsorted : ∀ {m}, m ∈ sortedById t.mentions → m ∈ t.mentions := fun hm => (List.mem_insertionSort _).1 hm
  obtain ⟨aliases, ha, rfl⟩ := consideredEdges_ok h
  rcases List.mem_append.1 he with he | he
  · obtain ⟨m, hm, hc⟩ := List.mem_flatMap.1 he
    obtain ⟨h1, x, hx, h2⟩ := mem_candidateEdges hc
    exact ⟨⟨m, hsorted hm, h1.symm⟩, x, mem_mentionById hx, h2⟩
  · obtain ⟨_, ha', rfl⟩ := List.mem_filterMap.1 he
    obtain ⟨m, hm, hok⟩ := mapM_mem ha _ ha'
    obtain ⟨h1, x, hx, h2⟩ := mem_aliasEdge hok
    exact ⟨⟨m, hsorted hm, h1.symm⟩, x, mem_mentionById hx, h2⟩

/-! ## What stays unresolved -/

theorem leftOpen_iff {l : Linked} {m : SourceMention} (hm : m ∈ t.mentions) :
    LeftOpen (batchOf t l.linker ((l.sortedRoots t).map (l.decideRoot u setOrder t))) m ↔
      l.Stays u t (l.linker.find m.mentionId) := by
  constructor
  · rintro ⟨-, hu⟩
    exact ((l.mem_unresolved u setOrder t).1 hu).2
  · refine fun hs => ⟨?_, (l.mem_unresolved u setOrder t).2 ⟨⟨m, hm, rfl⟩, hs⟩⟩
    rw [Option.eq_none_iff_forall_ne_some]
    intro ref href
    exact ((l.mem_assignments u setOrder t).1 (lastValue_mem href)).2.1 hs

/-- The cluster of an id that is related to no other one. -/
theorem clusterOf_alone {id : String} (halone : ∀ y, (clusters t edges).rel id y → y = id) :
    clusterOf t edges id = sortedById (t.mentions.filter (·.mentionId = id)) := by
  unfold clusterOf
  congr 1
  refine List.filter_congr fun x _ => decide_eq_decide.2 ⟨halone _, fun hx => ?_⟩
  rw [hx]
  exact (clusters t edges).equiv.refl _

/-- A mention that no edge reaches is its cluster. -/
theorem clusterOf_unlinked {m : SourceMention} (hun : Unlinked edges m.mentionId)
    (honce : t.mentions.filter (·.mentionId = m.mentionId) = [m]) (hnone : carried t.mentions m.mentionId = none) :
    clusterOf t edges m.mentionId = [m] := by
  rw [clusterOf_alone ((Partition.steps_alone_iff hnone edges).2 hun), honce]
  rfl

/-- What is a cluster of its own was reached by no edge. -/
theorem unlinked_clusterOf (he : consideredEdges u floor t hits = .ok edges) {m x : SourceMention} (hm : m ∈ t.mentions)
    (hnone : (clusters t edges).seed m.mentionId = none) (h : clusterOf t edges m.mentionId = [x]) :
    x = m ∧ Unlinked edges m.mentionId ∧ t.mentions.filter (·.mentionId = m.mentionId) = [m] := by
  have hmx : m = x := by
    have hmem := mem_clusterOf.2 ⟨hm, (clusters t edges).equiv.refl _⟩
    rw [h] at hmem
    exact List.mem_singleton.1 hmem
  subst hmx
  have halone : ∀ y, (clusters t edges).rel m.mentionId y → y = m.mentionId := by
    intro y hy
    rcases Partition.steps_touched edges hy with rfl | ⟨e, hmem, hend⟩
    · rfl
    · obtain ⟨z, hz, rfl⟩ : ∃ z ∈ t.mentions, z.mentionId = y := by
        obtain ⟨⟨a, ha, h1⟩, b, hb, h2⟩ := edge_ends he hmem
        rcases hend with rfl | rfl
        · exact ⟨a, ha, h1⟩
        · exact ⟨b, hb, h2⟩
      have hmem := mem_clusterOf.2 ⟨hz, hy⟩
      rw [h] at hmem
      rw [List.mem_singleton.1 hmem]
  have hcarried : carried t.mentions m.mentionId = none := by
    rw [Option.eq_none_iff_forall_ne_some]
    intro e he'
    rw [carried_seed edges he'] at hnone
    cases hnone
  refine ⟨rfl, (Partition.steps_alone_iff hcarried edges).1 halone, ?_⟩
  have hperm : (sortedById (t.mentions.filter (·.mentionId = m.mentionId))).Perm (t.mentions.filter (·.mentionId = m.mentionId)) :=
    List.perm_insertionSort _ _
  rw [← clusterOf_alone halone, h] at hperm
  exact (List.singleton_perm.1 hperm).symm

theorem staysOut_iff (he : consideredEdges u floor t hits = .ok edges) {m : SourceMention} (hm : m ∈ t.mentions)
    (hent : nonEmpty m.entityId = none) :
    StaysOut u t hits edges m.mentionId ↔ AloneAmbiguous t hits edges m ∨ SharesRef u t edges m := by
  constructor
  · rintro ⟨hnone, ⟨x, hx, hstay⟩ | hshare⟩
    · obtain ⟨rfl, hun, honce⟩ := unlinked_clusterOf he hm hnone hx
      exact .inl ⟨hun, honce, hstay⟩
    · exact .inr ⟨hnone, hshare⟩
  · rintro (⟨hun, honce, hstay⟩ | ⟨hnone, hshare⟩)
    · have hcarried : carried t.mentions m.mentionId = none := by
        rw [carried, honce, List.findSome?_cons, hent]
        rfl
      have hseed : (clusters t edges).seed m.mentionId = none := by
        rw [Option.eq_none_iff_forall_ne_some]
        intro e hs
        obtain ⟨y, hy, hf⟩ := Partition.steps_seed_of edges hs
        rw [(Partition.steps_alone_iff hcarried edges).2 hun y hy, hcarried] at hf
        cases hf
      exact ⟨hseed, .inl ⟨m, clusterOf_unlinked hun honce hcarried, hstay⟩⟩
    · exact ⟨hnone, .inr hshare⟩

end

end Umd.Resolution
