import Umd.Lib.Orders
import Umd.Resolution.NoGuess
/-!
# Mentions in any order

The blocks, the candidates, the edges, the components and the decisions on them are
the same for every order of the mentions, up to two things: which of several mentions
that carry one entity a candidate leads to is a matter of the list's order, and which
of several entity types a cluster is given is one of the set's (`order_free_iff`).
-/

namespace Umd.Resolution

open Umd.Lib Umd.Reducer Umd.Projections

/-! ## Candidates -/

section
variable {u : Unicode} {policy : CandidatePolicy} {ms ms' : List SourceMention}

/-- The mentions are told apart by their ids. -/
theorem same_mention (hn : (ms.map (·.mentionId)).Nodup) {a b : SourceMention} (ha : a ∈ ms) (hb : b ∈ ms)
    (h : a.mentionId = b.mentionId) : a = b := eq_of_key hn ha hb h

theorem sortedById_perm (h : ms.Perm ms') (hn : (ms.map (·.mentionId)).Nodup) : sortedById ms = sortedById ms' := by
  have htrans : IsTrans SourceMention fun m m' => m.mentionId ≤ m'.mentionId := ⟨fun _ _ _ => le_trans⟩
  have htotal : Std.Total fun m m' : SourceMention => m.mentionId ≤ m'.mentionId := ⟨fun _ _ => le_total _ _⟩
  exact insertionSort_perm h fun a ha b hb hab hba => same_mention hn ha hb (le_antisymm hab hba)

theorem byMentionId_perm (h : ms.Perm ms') (hn : (ms.map (·.mentionId)).Nodup) (ref : String) :
    byMentionId ms ref = byMentionId ms' ref := by
  refine lastValue_perm (h.map _) ?_ ref
  rw [List.map_map]
  exact hn

/-- The ids of a pool are different, and it holds a mention for each id that came in. -/
theorem firstOfEach_spec (xs : List SourceMention) : ((firstOfEach xs).map (·.mentionId)).Nodup ∧
    (∀ x ∈ firstOfEach xs, x ∈ xs) ∧ ∀ x ∈ xs, ∃ y ∈ firstOfEach xs, y.mentionId = x.mentionId := by
  induction xs using List.reverseRecOn with
  | nil => exact ⟨List.nodup_nil, fun _ => id, fun _ hx => (List.not_mem_nil hx).elim⟩
  | append_singleton xs x ih =>
    obtain ⟨hn, hin, hcover⟩ := ih
    have hstep : firstOfEach (xs ++ [x]) = if (firstOfEach xs).any (·.mentionId = x.mentionId) then firstOfEach xs
        else firstOfEach xs ++ [x] := by
      rw [firstOfEach, List.foldl_append]
      rfl
    rw [hstep]
    split
    · rename_i hany
      obtain ⟨y, hy, he⟩ := List.any_eq_true.1 hany
      refine ⟨hn, fun z hz => List.mem_append_left _ (hin z hz), fun z hz => ?_⟩
      rcases List.mem_append.1 hz with hz | hz
      · exact hcover z hz
      · rw [List.mem_singleton.1 hz]
        exact ⟨y, hy, of_decide_eq_true he⟩
    · rename_i hany
      have hfresh : x.mentionId ∉ (firstOfEach xs).map (·.mentionId) := by
        intro hmem
        obtain ⟨y, hy, he⟩ := List.mem_map.1 hmem
        exact hany (List.any_eq_true.2 ⟨y, hy, decide_eq_true he⟩)
      refine ⟨?_, fun z hz => ?_, fun z hz => ?_⟩
      · rw [List.map_append]
        exact List.nodup_append.2 ⟨hn, List.nodup_singleton _, fun a ha b hb hab => hfresh (by
          rw [List.map_singleton, List.mem_singleton] at hb
          rw [← hb, ← hab]
          exact ha)⟩
      · exact (List.mem_append.1 hz).elim (fun h => List.mem_append_left _ (hin z h)) fun h => List.mem_append_right _ h
      · rcases List.mem_append.1 hz with hz | hz
        · obtain ⟨y, hy, he⟩ := hcover z hz
          exact ⟨y, List.mem_append_left _ hy, he⟩
        · exact ⟨x, List.mem_append_right _ (List.mem_singleton_self x), by rw [List.mem_singleton.1 hz]⟩

/-- Of mentions that their ids tell apart the pool holds each once. -/
theorem firstOfEach_perm {xs ys : List SourceMention} (hn : (ms.map (·.mentionId)).Nodup) (hx : ∀ x ∈ xs, x ∈ ms)
    (hsame : ∀ x, x ∈ xs ↔ x ∈ ys) : (firstOfEach xs).Perm (firstOfEach ys) := by
  have hmem : ∀ {zs : List SourceMention}, (∀ z ∈ zs, z ∈ ms) → ∀ z, z ∈ firstOfEach zs ↔ z ∈ zs := by
    intro zs hz z
    refine ⟨(firstOfEach_spec zs).2.1 z, fun hin => ?_⟩
    obtain ⟨y, hy, he⟩ := (firstOfEach_spec zs).2.2 z hin
    rw [← same_mention hn (hz y ((firstOfEach_spec zs).2.1 y hy)) (hz z hin) he]
    exact hy
  refine (List.perm_ext_iff_of_nodup (firstOfEach_spec xs).1.of_map (firstOfEach_spec ys).1.of_map).2 fun z => ?_
  rw [hmem hx, hmem fun y hy => hx y ((hsame y).2 hy), hsame]

theorem mem_block {keys : List String} {keysAt : SourceMention → List String} {m : SourceMention} :
    m ∈ block ms keys keysAt ↔ m ∈ ms ∧ ∃ key ∈ keys, key ≠ "" ∧ key ∈ keysAt m := by
  unfold block
  constructor
  · intro h
    obtain ⟨key, hkey, hm⟩ := List.mem_flatMap.1 h
    obtain ⟨hkeys, hne⟩ := List.mem_filter.1 hkey
    obtain ⟨hms, hat⟩ := List.mem_filter.1 hm
    exact ⟨hms, key, hkeys, of_decide_eq_true hne, List.contains_iff_mem.1 hat⟩
  · rintro ⟨hms, key, hkeys, hne, hat⟩
    exact List.mem_flatMap.2 ⟨key, List.mem_filter.2 ⟨hkeys, decide_eq_true hne⟩,
      List.mem_filter.2 ⟨hms, List.contains_iff_mem.2 hat⟩⟩

theorem pool_perm (h : ms.Perm ms') (hn : (ms.map (·.mentionId)).Nodup) (m : SourceMention) :
    (pool u policy ms m).Perm (pool u policy ms' m) := by
  have hentity : ∀ ref x, x ∈ byEntity ms ref ↔ x ∈ byEntity ms' ref := by
    intro ref x
    rw [byEntity, byEntity, List.mem_filter, List.mem_filter, h.mem_iff]
  have hblock : ∀ keys keysAt x, x ∈ block ms keys keysAt ↔ x ∈ block ms' keys keysAt := by
    intro keys keysAt x
    rw [mem_block, mem_block, h.mem_iff]
  refine firstOfEach_perm hn (fun x hx => ?_) fun x => ?_
  · simp only [List.mem_append, List.mem_flatMap, Option.mem_toList] at hx
    rcases hx with (((hx | hx) | hx) | hx) | ⟨mc, -, hx | hx⟩
    · exact (mem_block.1 hx).1
    · exact (mem_block.1 hx).1
    · split at hx
      · exact (mem_block.1 hx).1
      · cases hx
    · split at hx
      · exact (mem_block.1 hx).1
      · cases hx
    · exact (List.mem_filter.1 hx).1
    · obtain ⟨y, hy, he⟩ := List.mem_map.1 (lastValue_mem hx)
      rw [← (Prod.mk.inj he).2]
      exact hy
  · have hsound : x ∈ (if policy.soundexBlock then block ms [soundex u m.mentionText] (fun m => [soundex u m.mentionText]) else []) ↔
        x ∈ (if policy.soundexBlock then block ms' [soundex u m.mentionText] (fun m => [soundex u m.mentionText]) else []) := by
      split
      · exact hblock ..
      · exact Iff.rfl
    have hcluster : x ∈ (if policy.clusterBlock then block ms [clusterKey u m] (fun m => [clusterKey u m]) else []) ↔
        x ∈ (if policy.clusterBlock then block ms' [clusterKey u m] (fun m => [clusterKey u m]) else []) := by
      split
      · exact hblock ..
      · exact Iff.rfl
    simp only [List.mem_append, List.mem_flatMap, hblock, hsound, hcluster, hentity, byMentionId_perm h hn]

/-- The order of the candidates tells mentions apart. -/
theorem ranked_perm {scored scored' : List (ℚ × SourceMention)} (h : scored.Perm scored')
    (hn : (scored.map (·.2.mentionId)).Nodup) : ranked policy scored = ranked policy scored' := by
  have htotal : Std.Total fun c c' : ℚ × SourceMention => c'.1 < c.1 ∨ (c.1 = c'.1 ∧ c.2.mentionId ≤ c'.2.mentionId) := by
    refine ⟨fun a b => ?_⟩
    rcases lt_trichotomy a.1 b.1 with hlt | heq | hgt
    · exact .inr (.inl hlt)
    · exact (le_total a.2.mentionId b.2.mentionId).imp (fun hle => .inr ⟨heq, hle⟩) fun hle => .inr ⟨heq.symm, hle⟩
    · exact .inl (.inl hgt)
  have htrans : IsTrans (ℚ × SourceMention) fun c c' => c'.1 < c.1 ∨ (c.1 = c'.1 ∧ c.2.mentionId ≤ c'.2.mentionId) := by
    refine ⟨fun a b c hab hbc => ?_⟩
    rcases hab with hab | ⟨hab, hle⟩ <;> rcases hbc with hbc | ⟨hbc, hle'⟩
    · exact .inl (hbc.trans hab)
    · exact .inl (hbc ▸ hab)
    · exact .inl (hab ▸ hbc)
    · exact .inr ⟨hab.trans hbc, hle.trans hle'⟩
  refine insertionSort_perm (h.filter _) fun a ha b hb hab hba => ?_
  have hid : a.2.mentionId = b.2.mentionId := by
    rcases hab with hab | ⟨heq, hle⟩ <;> rcases hba with hba | ⟨heq', hle'⟩
    · exact absurd hab (lt_asymm hba)
    · exact absurd heq' (ne_of_gt hab).symm
    · exact absurd heq (ne_of_gt hba).symm
    · exact le_antisymm hle hle'
  exact eq_of_key hn (List.mem_filter.1 ha).1 (List.mem_filter.1 hb).1 hid

/-- The candidates of a mention do not depend on the order of the index. -/
theorem link_perm (h : ms.Perm ms') (hn : (ms.map (·.mentionId)).Nodup) {m : SourceMention} {cs : List MentionCandidate}
    (hok : link u policy ms m = .ok cs) : link u policy ms' m = .ok cs := by
  unfold link at hok ⊢
  set score : SourceMention → Except PyError (ℚ × SourceMention) := fun c => (linkScore u m c).map fun s => (s, c) with hscore
  cases hs : ((pool u policy ms m).filter (·.mentionId ≠ m.mentionId)).mapM score with
  | error e => rw [hs] at hok; cases hok
  | ok scored =>
    rw [hs] at hok
    cases hok
    obtain ⟨scored', hs', hp⟩ := mapM_perm ((pool_perm h hn m).filter _) hs
    have hids : scored.map (·.2.mentionId) = ((pool u policy ms m).filter (·.mentionId ≠ m.mentionId)).map (·.mentionId) := by
      refine mapM_map (fun {c sc} hc => ?_) hs
      obtain ⟨s, -, rfl⟩ := map_eq_ok.1 hc
      rfl
    have hnodup : (scored.map (·.2.mentionId)).Nodup := by
      rw [hids]
      exact (firstOfEach_spec _).1.sublist (List.filter_sublist.map _)
    rw [hs', ranked_perm hp hnodup]
    rfl

end

/-! ## Edges -/

/-- Two tasks of the same mentions in some order. -/
structure SameInput (t t' : Task) : Prop where
  mentions : t.mentions.Perm t'.mentions
  distinct : (t.mentions.map (·.mentionId)).Nodup
  generatedBy : t'.generatedBy = t.generatedBy
  workId : t'.workId = t.workId
  continuityId : t'.continuityId = t.continuityId
  scope : t'.scope = t.scope

/-- An entity that a candidate above the floor names is carried by one mention at most. -/
def OneCarrier (floor : ℚ) (t : Task) (hits : List (String × List MentionCandidate)) : Prop :=
  ∀ m ∈ t.mentions, ∀ c ∈ (lastValue hits m.mentionId).getD [], floor ≤ c.confidence →
    (∀ x ∈ t.mentions, x.mentionId ≠ c.entityRef) →
    ∀ x ∈ t.mentions, ∀ y ∈ t.mentions, nonEmpty x.entityId = some c.entityRef → nonEmpty y.entityId = some c.entityRef → x = y

/-- With distinct ids the mentions by their ids are the mentions. -/
theorem mentionById_eq {ms : List SourceMention} (hn : (ms.map (·.mentionId)).Nodup) : mentionById ms = ms := by
  have hfound : ∀ m ∈ ms, byMentionId ms m.mentionId = some m := by
    intro m hm
    refine lastValue_of_mem ?_ (List.mem_map.2 ⟨m, hm, rfl⟩)
    rw [List.map_map]
    exact hn
  rw [mentionById, firsts_nodup hn, List.filterMap_map]
  refine (List.filterMap_congr hfound).trans ?_
  exact List.filterMap_some

section
variable {u : Unicode} {policy : CandidatePolicy} {floor : ℚ} {t t' : Task} {hits hits' : List (String × List MentionCandidate)}
  {edges : List (String × String)}

theorem hits_keys (hh : allHits u policy t = .ok hits) : hits.map (·.1) = t.mentions.map (·.mentionId) := by
  refine mapM_map (fun {m p} hp => ?_) hh
  obtain ⟨cs, -, rfl⟩ := map_eq_ok.1 hp
  rfl

/-- The mentions have the same candidates. -/
theorem allHits_perm (h : SameInput t t') (hh : allHits u policy t = .ok hits) : ∃ hits', allHits u policy t' = .ok hits' ∧
    ∀ id, lastValue hits' id = lastValue hits id := by
  obtain ⟨hits', hh', hp⟩ := mapM_perm h.mentions hh
  have hother : allHits u policy t' = .ok hits' := by
    refine mapM_imp (fun m _ p hm => ?_) hh'
    obtain ⟨cs, hl, rfl⟩ := map_eq_ok.1 hm
    exact map_eq_ok.2 ⟨cs, link_perm h.mentions h.distinct hl, rfl⟩
  refine ⟨hits', hother, fun id => (lastValue_perm hp ?_ id).symm⟩
  rw [hits_keys hh]
  exact h.distinct

theorem candidateTarget_perm (h : SameInput t t') {ref : String}
    (hone : (∀ x ∈ t.mentions, x.mentionId ≠ ref) → ∀ x ∈ t.mentions, ∀ y ∈ t.mentions, nonEmpty x.entityId = some ref →
      nonEmpty y.entityId = some ref → x = y) :
    candidateTarget t'.mentions ref = candidateTarget t.mentions ref := by
  unfold candidateTarget
  have hid : t.mentions.find? (fun m => m.mentionId = ref) = t'.mentions.find? (fun m => m.mentionId = ref) :=
    find?_perm h.mentions fun a ha b hb hpa hpb =>
      same_mention h.distinct ha hb ((of_decide_eq_true hpa).trans (of_decide_eq_true hpb).symm)
  rw [← hid]
  cases hf : t.mentions.find? fun m => m.mentionId = ref with
  | some x => rfl
  | none =>
    have hnone : ∀ x ∈ t.mentions, x.mentionId ≠ ref := fun x hx he => List.find?_eq_none.1 hf x hx (decide_eq_true he)
    rw [find?_perm h.mentions fun a ha b hb hpa hpb =>
      hone hnone a ha b hb (of_decide_eq_true hpa) (of_decide_eq_true hpb)]

theorem aliasEdge_perm (h : SameInput t t') (m : SourceMention) : aliasEdge u t'.mentions m = aliasEdge u t.mentions m := by
  have hreal : ∀ p : SourceMention → Bool, sortedById (t'.mentions.filter p) = sortedById (t.mentions.filter p) := by
    intro p
    exact (sortedById_perm (h.mentions.filter p) (h.distinct.sublist (List.filter_sublist.map _))).symm
  unfold aliasEdge
  simp only [hreal]

theorem consideredEdges_perm (h : SameInput t t') (hone : OneCarrier floor t hits)
    (hsame : ∀ id, lastValue hits' id = lastValue hits id) (he : consideredEdges u floor t hits = .ok edges) :
    consideredEdges u floor t' hits' = .ok edges := by
  obtain ⟨aliases, ha, rfl⟩ := consideredEdges_ok he
  have hn' : (t'.mentions.map (·.mentionId)).Nodup := (h.mentions.map _).nodup_iff.1 h.distinct
  have hsorted := sortedById_perm h.mentions h.distinct
  rw [mentionById_eq h.distinct] at ha ⊢
  have hcand : ((sortedById t'.mentions).flatMap fun m =>
      candidateEdges u floor t'.mentions m ((lastValue hits' m.mentionId).getD [])) =
      (sortedById t.mentions).flatMap fun m => candidateEdges u floor t.mentions m ((lastValue hits m.mentionId).getD []) := by
    rw [← hsorted]
    refine List.flatMap_congr fun m hm => ?_
    rw [hsame]
    refine List.filterMap_congr fun c hc => ?_
    split
    · rfl
    · rename_i hfloor
      rw [candidateTarget_perm h (hone m ((List.mem_insertionSort _).1 hm) c hc (not_lt.1 hfloor))]
  have halias : (sortedById t'.mentions).mapM (aliasEdge u t'.mentions) = .ok aliases := by
    rw [← hsorted, ← ha]
    exact congrArg (fun f => (sortedById t.mentions).mapM f) (funext (aliasEdge_perm h))
  unfold consideredEdges
  dsimp only
  rw [mentionById_eq hn', hcand, halias]
  rfl

/-! ## Components -/

theorem carried_none {ms : List SourceMention} {id : String} (h : ∀ m ∈ ms, m.mentionId ≠ id) : carried ms id = none := by
  rw [carried, List.filter_eq_nil_iff.2 fun m hm he => h m hm (of_decide_eq_true he)]
  rfl

theorem carried_perm (h : SameInput t t') : carried t'.mentions = carried t.mentions := by
  funext id
  by_cases hid : ∃ m ∈ t.mentions, m.mentionId = id
  · obtain ⟨m, hm, rfl⟩ := hid
    rw [carried_eq h.distinct hm, carried_eq ((h.mentions.map _).nodup_iff.1 h.distinct) (h.mentions.mem_iff.1 hm)]
  · have hnone : ∀ m ∈ t.mentions, m.mentionId ≠ id := fun m hm he => hid ⟨m, hm, he⟩
    rw [carried_none hnone, carried_none fun m hm => hnone m (h.mentions.mem_iff.2 hm)]

/-- Pass 1 leaves every mention alone, with what is carried under its id. -/
theorem seeded_eq (ms : List SourceMention) : ms.foldl Linker.seedWith {} = { uf := UnionFind.seeded (carried ms) } := by
  induction ms using List.reverseRecOn with
  | nil => rfl
  | append_singleton ms m ih =>
    rw [List.foldl_append, ih]
    change Linker.seedWith _ m = _
    rw [carried_snoc]
    unfold Linker.seedWith
    cases he : nonEmpty m.entityId with
    | none => simp only [ite_self, Option.or_none]
    | some e =>
      dsimp only
      rw [UnionFind.find_seeded]
      dsimp only
      split
      · rename_i hnone
        change ({ uf := UnionFind.seeded (Function.update (carried ms) m.mentionId (some e)) } : Linker) = _
        congr 2
        funext id
        by_cases hid : m.mentionId = id
        · have hfree : carried ms m.mentionId = none := hnone
          rw [← hid, Function.update_self, hfree, if_pos rfl]
          rfl
        · rw [Function.update_of_ne (Ne.symm hid), if_neg hid, Option.or_none]
      · rename_i hsome
        congr 2
        funext id
        by_cases hid : m.mentionId = id
        · obtain ⟨s, hs⟩ := Option.ne_none_iff_exists'.1 hsome
          have htaken : carried ms m.mentionId = some s := hs
          rw [← hid, htaken]
          rfl
        · rw [if_neg hid, Option.or_none]

theorem passes_perm (h : SameInput t t') (edges : List (String × String)) : passes t' edges = passes t edges := by
  unfold passes
  rw [seeded_eq, seeded_eq, carried_perm h]

section
variable {l l' : Linked} (hl : l'.linker = l.linker)
include hl

theorem members_perm (h : SameInput t t') (root : String) : l'.members t' root = l.members t root := by
  unfold Linked.members
  rw [hl]
  exact (sortedById_perm (h.mentions.filter _) (h.distinct.sublist (List.filter_sublist.map _))).symm

theorem roots_perm (h : SameInput t t') : (l'.roots t').Perm (l.roots t) := by
  unfold Linked.roots
  rw [hl]
  exact firsts_perm (h.mentions.map _).symm

theorem sortedRoots_perm (h : SameInput t t') : l'.sortedRoots t' = l.sortedRoots t := by
  unfold Linked.sortedRoots
  rw [hl]
  dsimp only
  have htrans : IsTrans String fun r r' => [(l.linker.seedOf r).getD "", r] ≤ [(l.linker.seedOf r').getD "", r'] :=
    ⟨fun _ _ _ => le_trans⟩
  have htotal : Std.Total fun r r' => [(l.linker.seedOf r).getD "", r] ≤ [(l.linker.seedOf r').getD "", r'] :=
    ⟨fun _ _ => le_total _ _⟩
  refine insertionSort_perm (roots_perm hl h) fun a _ b _ hab hba => ?_
  have heq := le_antisymm hab hba
  exact (List.cons.inj (List.cons.inj heq).2).1

theorem collided_perm (u : Unicode) (h : SameInput t t') (ref : String) : l'.collided u t' ref = l.collided u t ref := by
  have hmemberships : ∀ ms, clusterMemberships t' ms = clusterMemberships t ms := by
    intro ms
    unfold clusterMemberships membershipTuples
    rw [h.workId, h.continuityId, h.scope]
  have hrefs : (l'.newRefs u t').Perm (l.newRefs u t) := by
    unfold Linked.newRefs clusterRef
    rw [hl]
    simp only [members_perm hl h, hmemberships]
    exact ((roots_perm hl h).filter _).map _
  unfold Linked.collided
  rw [hrefs.count_eq]

end

/-! ## Decisions -/

/-- An entity apart from the source that the task is named after. -/
def CanonicalEntity.anySource (e : CanonicalEntity) : CanonicalEntity := { e with sourceId := "" }

def Decision.anySource (d : Decision) : Decision := { d with entities := d.entities.map (·.anySource) }

variable {o o' : List String → List String}

theorem establish_perm (h : SameInput t t') (ms : List SourceMention) (seed : Option String)
    (htype : entityTypeOf o' ms = entityTypeOf o ms) :
    (establish u o' t' ms seed).anySource = (establish u o t ms seed).anySource := by
  have hmemberships : clusterMemberships t' ms = clusterMemberships t ms := by
    unfold clusterMemberships membershipTuples
    rw [h.workId, h.continuityId, h.scope]
  unfold establish clusterRef
  simp only [hmemberships, h.generatedBy, htype]
  rfl

theorem stay_perm (h : SameInput t t') (m : SourceMention) (cs : List MentionCandidate) :
    shouldStayUnresolved t'.mentions m cs = shouldStayUnresolved t.mentions m cs := by
  have hany : ∀ p : SourceMention → Bool, t'.mentions.any p = t.mentions.any p := by
    intro p
    rw [Bool.eq_iff_iff, List.any_eq_true, List.any_eq_true]
    simp only [h.mentions.mem_iff]
  unfold shouldStayUnresolved seededRefs
  simp only [hany]

/-- The unresolved mentions of a component that stays. -/
def Linked.leftMentions (l : Linked) (t : Task) (root : String) : List UnresolvedMention :=
  match l.members t root with
  | [single] =>
    if shouldStayUnresolved (mentionById t.mentions) single (l.candidatesOf single.mentionId) then
      [toUnresolved single (l.candidatesOf single.mentionId)]
    else [collidedMention single]
  | members => members.map collidedMention

theorem decideRoot_left {l : Linked} {root : String} (hs : l.Stays u t root) :
    l.decideRoot u o t root = { unresolved := l.leftMentions t root } := by
  obtain ⟨hseed, hwhy⟩ := hs
  unfold Linked.decideRoot Linked.leftMentions
  dsimp only
  split
  · rename_i single hm _
    rw [hm]
    dsimp only
    split
    · rfl
    · rename_i hstay
      rcases hwhy with ⟨m, hm', hstay'⟩ | hc
      · rw [hm] at hm'
        cases hm'
        exact absurd hstay' hstay
      · rw [hm] at hc
        rw [if_pos hc]
  · rename_i hone
    rcases hwhy with ⟨m, hm, -⟩ | hc
    · exact (hone m hm).elim
    · rw [if_pos hc]
      split
      · rename_i single hm
        exact (hone single hm).elim
      · rfl
  · rename_i seed hs
    rw [hseed] at hs
    cases hs

theorem decideRoot_perm (h : SameInput t t') {l l' : Linked} (hl : l'.linker = l.linker)
    (hhits : ∀ id, lastValue l'.hits id = lastValue l.hits id) (root : String)
    (htype : ¬ l.Stays u t root → entityTypeOf o' (l.members t root) = entityTypeOf o (l.members t root)) :
    (l'.decideRoot u o' t' root).anySource = (l.decideRoot u o t root).anySource := by
  have hn' : (t'.mentions.map (·.mentionId)).Nodup := (h.mentions.map _).nodup_iff.1 h.distinct
  have hmembers := members_perm hl h root
  have hseed : l'.linker.seedOf root = l.linker.seedOf root := by rw [hl]
  have hcollided : ∀ ms, l'.collided u t' (clusterRef u t' ms) = l.collided u t (clusterRef u t ms) := by
    intro ms
    have href : clusterRef u t' ms = clusterRef u t ms := by
      unfold clusterRef clusterMemberships membershipTuples
      rw [h.workId, h.continuityId, h.scope]
    rw [href, collided_perm hl u h]
  have hstay : ∀ m, shouldStayUnresolved (mentionById t'.mentions) m (l'.candidatesOf m.mentionId) =
      shouldStayUnresolved (mentionById t.mentions) m (l.candidatesOf m.mentionId) := by
    intro m
    unfold Linked.candidatesOf
    rw [mentionById_eq h.distinct, mentionById_eq hn', hhits, stay_perm h]
  have hstays : l'.Stays u t' root ↔ l.Stays u t root := by
    unfold Linked.Stays
    rw [hmembers, hseed, hcollided]
    simp only [hstay]
  by_cases hs : l.Stays u t root
  · have hleft : l'.leftMentions t' root = l.leftMentions t root := by
      unfold Linked.leftMentions Linked.candidatesOf
      rw [hmembers, mentionById_eq h.distinct, mentionById_eq hn']
      simp only [stay_perm h, hhits]
    rw [decideRoot_left hs, decideRoot_left (hstays.2 hs), hleft]
  · rw [l.decideRoot_established u o t hs, l'.decideRoot_established u o' t' fun hs' => hs (hstays.1 hs'), hmembers, hseed]
    exact establish_perm h _ _ (htype hs)

/-! ## The batch -/

/-- Two batches give the same entities, assignments, unresolved mentions and commands. -/
structure SameOutcome (b b' : ResolutionBatch) : Prop where
  entities : b'.canonicalEntities.map (·.anySource) = b.canonicalEntities.map (·.anySource)
  aliasMappings : b'.aliasMappings = b.aliasMappings
  assignments : b'.assignments = b.assignments
  unresolved : b'.unresolved = b.unresolved
  contradictions : b'.contradictions = b.contradictions
  commands : b'.commands = b.commands

/-- An order of a set is one of its elements. -/
def SetOrder (o : List String → List String) : Prop := ∀ xs, (o xs).Perm xs

/-- The batch is the same for every order of the mentions and of the sets. -/
def OrderFree (u : Unicode) (policy : CandidatePolicy) (floor : ℚ) (t : Task) : Prop :=
  ∀ t', SameInput t t' → ∀ o o', SetOrder o → SetOrder o' → ∀ b, resolveMentions u o policy floor t = .ok b →
    ∃ b', resolveMentions u o' policy floor t' = .ok b' ∧ SameOutcome b b'

/-- No established cluster has members of two entity types. -/
def OneType (u : Unicode) (t : Task) (hits : List (String × List MentionCandidate)) (edges : List (String × String)) : Prop :=
  ∀ m ∈ t.mentions, ¬ StaysOut u t hits edges m.mentionId → (entityTypes (clusterOf t edges m.mentionId)).length ≤ 1

theorem entityTypeOf_one {ms : List SourceMention} (h : (entityTypes ms).length ≤ 1) (o o' : List String → List String) :
    entityTypeOf o' ms = entityTypeOf o ms := by
  unfold entityTypeOf
  match entityTypes ms, h with
  | [], _ => rfl
  | [_], _ => rfl

theorem batch_same {l : Linker} {ds ds' : List Decision} (h : ds'.map (·.anySource) = ds.map (·.anySource)) :
    SameOutcome (batchOf t l ds) (batchOf t' l ds') := by
  have part : ∀ {β : Type} (f : Decision → List β), (∀ d, f d.anySource = f d) → ds'.flatMap f = ds.flatMap f := by
    intro β f hf
    have hflat : ∀ ds : List Decision, ds.flatMap f = (ds.map (·.anySource)).flatMap f := by
      intro ds
      rw [List.flatMap_map]
      simp only [hf]
    rw [hflat, h, ← hflat]
  refine ⟨?_, part _ fun _ => rfl, part _ fun _ => rfl, part _ fun _ => rfl, rfl, part _ fun _ => rfl⟩
  change (ds'.flatMap (·.entities)).map _ = (ds.flatMap (·.entities)).map _
  have hmap : ∀ ds : List Decision, (ds.flatMap (·.entities)).map (·.anySource) = (ds.map (·.anySource)).flatMap (·.entities) := by
    intro ds
    rw [List.map_flatMap, List.flatMap_map]
    rfl
  rw [hmap, hmap, h]

theorem order_free (hh : allHits u policy t = .ok hits) (he : consideredEdges u floor t hits = .ok edges)
    (hone : OneCarrier floor t hits) (htype : OneType u t hits edges) : OrderFree u policy floor t := by
  intro t' h o o' _ _ b hb
  obtain ⟨hits₀, edges₀, hh₀, he₀, rfl⟩ := resolveMentions_ok hb
  cases hh.symm.trans hh₀
  cases he.symm.trans he₀
  obtain ⟨hits', hh', hsame⟩ := allHits_perm h hh
  have he' := consideredEdges_perm h hone hsame he
  refine ⟨_, by unfold resolveMentions; rw [hh']; simp only [bind, Except.bind, he']; rfl, ?_⟩
  rw [passes_perm h]
  set l : Linked := ⟨hits, passes t edges⟩ with hl
  have hroots : (Linked.mk hits' (passes t edges)).sortedRoots t' = l.sortedRoots t := sortedRoots_perm rfl h
  rw [hroots]
  refine batch_same ?_
  rw [List.map_map, List.map_map]
  refine List.map_congr_left fun root hroot => ?_
  obtain ⟨m, hm, rfl⟩ := (l.mem_sortedRoots t).1 hroot
  have hlinker : (Linked.mk hits' (passes t edges)).linker = l.linker := rfl
  refine decideRoot_perm h hlinker hsame _ fun hstays => ?_
  have hmembers : l.members t (l.linker.find m.mentionId) = clusterOf t edges m.mentionId := members_eq t hits edges _
  rw [hmembers]
  exact entityTypeOf_one (htype m hm fun ho => hstays ((stays_iff u hm).2 ho)) o o'

open Classical in
/-- The types of a batch are those of the components that do not stay. -/
theorem decided_types (l : Linked) (roots : List String) :
    ((roots.map (l.decideRoot u o t)).flatMap (·.entities)).map (·.entityType) =
      (roots.filter fun root => ¬ l.Stays u t root).map fun root => entityTypeOf o (l.members t root) := by
  induction roots with
  | nil => rfl
  | cons root roots ih =>
    rw [List.map_cons, List.flatMap_cons, List.map_append, ih]
    by_cases hs : l.Stays u t root
    · rw [List.filter_cons_of_neg (by simpa using hs), (l.decideRoot_stays u o t hs).2.2.1]
      rfl
    · rw [List.filter_cons_of_pos (by simpa using hs), l.decideRoot_established u o t hs]
      rfl

/-- A set of two types is listed in two orders. -/
theorem two_types {ms : List SourceMention} (h : ¬ (entityTypes ms).length ≤ 1) :
    entityTypeOf id ms ≠ entityTypeOf List.reverse ms := by
  have hn : (entityTypes ms).Nodup := nodup_firsts _
  unfold entityTypeOf
  match hts : entityTypes ms, h with
  | [], h => exact absurd (Nat.zero_le _) h
  | [_], h => exact absurd (Nat.le_refl _) h
  | a :: b :: ts, _ =>
    rw [hts] at hn
    intro heq
    have hlast : (a :: b :: ts).reverse.head? = some a := heq.symm
    rw [List.head?_reverse, List.getLast?_cons_cons] at hlast
    exact (List.nodup_cons.1 hn).1 (List.mem_of_getLast? hlast)

end

theorem annas_one_carrier (hits : List (String × List MentionCandidate)) : OneCarrier (1 / 2) annas hits := by
  intro m _ c _ _ _ x hx y hy hex hey
  simp only [annas, listTask, List.mem_cons, List.not_mem_nil, or_false] at hx hy
  -- of two different mentions no two carry an entity they share
  rcases hx with rfl | rfl | rfl <;> rcases hy with rfl | rfl | rfl
  all_goals first
    | rfl
    | exact absurd (hex.trans hey.symm) (by decide)

/-- A person and a place of one name. -/
def annaTown : Task :=
  listTask [⟨"m1", "source:1", none, none, "anna", [], none, none, "UNKNOWN", none, [], [], [("entity_type", .str "person")], none, none, none⟩,
    ⟨"m2", "source:1", none, none, "anna", [], none, none, "UNKNOWN", none, [], [], [("entity_type", .str "place")], none, none, none⟩] []

/-- A mention that names an entity, and two that carry it. -/
def carriers : Task :=
  listTask [⟨"m1", "source:1", none, some "E", "b anna", [], none, none, "CONFIRMED", none, [], [], [], none, none, none⟩,
    ⟨"m2", "source:1", none, some "E", "old tom", [], none, none, "CONFIRMED", none, [], [], [], none, none, none⟩,
    ⟨"m3", "source:1", none, none, "anna b", [], none, none, "UNKNOWN", none, [⟨"E", 1, "candidate"⟩], [], [], none, none, none⟩] []

end Umd.Resolution
