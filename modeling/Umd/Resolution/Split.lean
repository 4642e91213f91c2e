import Umd.Lib.Ranking
import Umd.Projections.Edges
import Umd.Resolution.Resolver
/-!
# What a split re-targets

`PostgresSplitEnumerator.enumerate`: the references of an entity are the
mentions its rows and the ledger name, the alignments and the assertions. Each
is decided for one of the targets or goes to quarantine.
-/

namespace Umd.Resolution

open Umd.Lib Umd.Events Umd.Reducer Umd.Ledger Umd.Projections

/-! ## The tables it reads -/

/-- `MentionCandidate`. -/
structure MentionCandidate where
  entityRef : String
  confidence : ℚ
  role : String := "candidate"

/-- A row of `entity_mention`, as far as a split looks at it, with its id as text. -/
structure MentionRow where
  mentionId : String
  entityId : Option UuidValue := none
  candidates : List MentionCandidate := []

/-- A row of `alignment`. -/
structure AlignmentRow where
  id : String
  leftRef : String
  rightRef : String

/-- A row of `semantic_assertion`. -/
structure ClaimRow where
  id : String
  subjectRef : Option String := none
  objectRef : Option String := none

/-- The tables under their primary keys, and the ledger. -/
structure SplitTables where
  mentions : List MentionRow := []
  alignments : List AlignmentRow := []
  assertions : List ClaimRow := []
  events : List EventRow := []
  mentions_keyed : (mentions.map (·.mentionId)).Nodup := by simp
  alignments_keyed : (alignments.map (·.id)).Nodup := by simp
  assertions_keyed : (assertions.map (·.id)).Nodup := by simp

namespace SplitTables

/-- `mentions_for_entity`. -/
def mentionsForEntity (t : SplitTables) (entityRef : String) : List MentionRow :=
  match uuidRefOrNone entityRef with
  | none => []
  | some id => t.mentions.filter (·.entityId = some id)

/-- `get`, of a mention id. -/
def mention (t : SplitTables) (mentionId : String) : Option MentionRow := t.mentions.find? (·.mentionId = mentionId)

/-- The mention id an event attaches to the entity. -/
def attachedMention (entityRef : String) (r : EventRow) : Option String :=
  if r.eventType = .EntityMentioned ∧ asText (r.payload.get "entity_id") = some entityRef ∧
      (asText (r.payload.get "mention_id")).isSome then
    asText (r.payload.get "mention_id")
  else if r.eventType = .EntityResolved ∧ asText (r.payload.get "kind") = some "ALIAS" ∧
      asText (r.payload.get "target_entity_id") = some entityRef ∧ (asText (r.payload.get "entity_id")).isSome then
    asText (r.payload.get "entity_id")
  else none

/-- `_event_resolved_mention_ids`. -/
def eventResolvedMentionIds (t : SplitTables) (entityRef : String) : List String :=
  ((t.events.filterMap (attachedMention entityRef)).filter fun id => t.mentions.any (·.mentionId = id)).dedup

/-- The mentions a split finds: those of the rows, and those of the ledger that the rows do not name. -/
def mentionSources (t : SplitTables) (entityRef : String) : List MentionRow :=
  let found := t.mentionsForEntity entityRef
  found ++ ((t.eventResolvedMentionIds entityRef).filter fun id => id ∉ found.map (·.mentionId)).filterMap t.mention

/-- `_alignment_refs`, with the two sides `_decide_alignment` reads. -/
def alignmentsOf (t : SplitTables) (entityRef : String) : List AlignmentRow :=
  t.alignments.filter fun r => r.leftRef = entityRef || r.rightRef = entityRef

/-- `_assertion_refs`. -/
def assertionsOf (t : SplitTables) (entityRef : String) : List ClaimRow :=
  t.assertions.filter fun r => r.subjectRef = some entityRef || r.objectRef = some entityRef

end SplitTables

/-! ## The decisions -/

/-- The candidates that name a target, the last one of each entity, where the first one of it was. -/
def inTargets (targets : List String) (candidates : List MentionCandidate) : List MentionCandidate :=
  (candidates.filter (·.entityRef ∈ targets)).foldl (fun d c =>
    if d.any (·.entityRef = c.entityRef) then d.map fun c' => if c'.entityRef = c.entityRef then c else c' else d ++ [c]) []

/-- `_decide_mention`. -/
def decideMention (m : MentionRow) (targets : List String) : Option String :=
  match firstMax (fun c c' => c.confidence < c'.confidence) (inTargets targets m.candidates) with
  | none => none
  | some highest =>
    let ties := (inTargets targets m.candidates).filter (·.confidence = highest.confidence)
    if ties.length = 1 then some highest.entityRef else none

/-- `_decide_alignment`. -/
def decideAlignment (r : AlignmentRow) (targets : List String) : Option String :=
  match [r.leftRef, r.rightRef].filter (· ∈ targets) with
  | [] => none
  | [ref] => some ref
  | ref :: ref' :: _ => if ref = ref' then some ref else none

/-- More hits, or as many and a smaller name. -/
def before (hits : List String) (s s' : String) : Prop := hits.count s' < hits.count s ∨ (hits.count s = hits.count s' ∧ s ≤ s')

instance (hits : List String) : DecidableRel (before hits) := fun _ _ => inferInstanceAs (Decidable (_ ∨ _))

/-- `_dominant_target`, of the targets that were hit. -/
def dominantTarget (hits targets : List String) : Option String :=
  if hits.isEmpty then none
  else match targets.insertionSort (before hits) with
    | [] => none
    | first :: _ => if 0 < hits.count first then some first else none

/-- `SplitPlan`; `assignments` as the function of its dictionary. -/
structure SplitPlan where
  entityId : String
  targets : List String
  assignments : String → Option String
  quarantinedRefs : List String
  reason : Option String := none

/-- `assignments[ref] = target` for each reference that is decided. -/
def assignAll (decided : List (String × Option String)) : String → Option String :=
  decided.foldl (fun d r => match r.2 with
    | some target => upd d r.1 (some target)
    | none => d) fun _ => none

/-- The references of an entity with what is decided of each. -/
def decisions (t : SplitTables) (entityRef : String) (targets : List String) : List (String × Option String) :=
  let mentions := (t.mentionSources entityRef).map fun m => (m.mentionId, decideMention m targets)
  let alignments := (t.alignmentsOf entityRef).map fun r => (r.id, decideAlignment r targets)
  let dominant := dominantTarget (mentions.filterMap (·.2)) targets
  mentions ++ alignments ++ (t.assertionsOf entityRef).map fun r => (r.id, dominant)

/-- `enumerate`. -/
def enumerate (t : SplitTables) (entityRef : String) (targets : List String) : Except ResolveError SplitPlan :=
  if targets.isEmpty then .error .rejected
  else
    let targets := targets.insertionSort (· ≤ ·)
    let decided := decisions t entityRef targets
    .ok {
      entityId := entityRef
      targets := targets
      assignments := assignAll decided
      quarantinedRefs := (((decided.filter (·.2.isNone)).map (·.1)).dedup).insertionSort (· ≤ ·) }

/-! ## What a mention is decided for -/

/-- The candidate is the last one of the mention that names its entity. -/
def LastNamed (cs : List MentionCandidate) (c : MentionCandidate) : Prop :=
  ∃ pre post, cs = pre ++ c :: post ∧ ∀ c' ∈ post, c'.entityRef ≠ c.entityRef

theorem LastNamed.mem {cs : List MentionCandidate} {c : MentionCandidate} (h : LastNamed cs c) : c ∈ cs := by
  obtain ⟨pre, post, rfl, -⟩ := h
  simp

theorem lastNamed_snoc {cs : List MentionCandidate} {x c : MentionCandidate} :
    LastNamed (cs ++ [x]) c ↔ c = x ∨ (LastNamed cs c ∧ x.entityRef ≠ c.entityRef) := by
  constructor
  · rintro ⟨pre, post, heq, hpost⟩
    rcases List.eq_nil_or_concat post with rfl | ⟨post', last, rfl⟩
    · obtain ⟨-, hl⟩ := List.append_inj' heq rfl
      cases hl
      exact .inl rfl
    · rw [List.concat_eq_append, ← List.cons_append, ← List.append_assoc] at heq
      obtain ⟨rfl, hl⟩ := List.append_inj' heq rfl
      cases hl
      exact .inr ⟨⟨pre, post', rfl, fun c' hc => hpost c' (by simp [hc])⟩, hpost x (by simp)⟩
  · rintro (rfl | ⟨⟨pre, post, rfl, hpost⟩, hx⟩)
    · exact ⟨cs, [], rfl, nofun⟩
    · refine ⟨pre, post ++ [x], by simp, fun c' hc => ?_⟩
      rcases List.mem_append.1 hc with hc | hc
      · exact hpost c' hc
      · rw [List.mem_singleton.1 hc]
        exact hx

/-- The dictionary of candidates holds the last one of each target, once. -/
theorem inTargets_spec (targets : List String) (cs : List MentionCandidate) :
    ((inTargets targets cs).map (·.entityRef)).Nodup ∧
      ∀ c, c ∈ inTargets targets cs ↔ LastNamed cs c ∧ c.entityRef ∈ targets := by
  induction cs using List.reverseRecOn with
  | nil =>
    refine ⟨.nil, fun c => iff_of_false nofun ?_⟩
    rintro ⟨⟨pre, post, heq, -⟩, -⟩
    simp at heq
  | append_singleton cs x ih =>
    obtain ⟨hn, hmem⟩ := ih
    by_cases hx : x.entityRef ∈ targets
    · have hstep : inTargets targets (cs ++ [x]) =
          if (inTargets targets cs).any (·.entityRef = x.entityRef) then
            (inTargets targets cs).map fun c' => if c'.entityRef = x.entityRef then x else c'
          else inTargets targets cs ++ [x] := by
        simp [inTargets, hx]
      rw [hstep]
      split
      · rename_i hany
        constructor
        · have hrefs : ((inTargets targets cs).map fun c' => if c'.entityRef = x.entityRef then x else c').map (·.entityRef) =
              (inTargets targets cs).map (·.entityRef) := by
            rw [List.map_map]
            refine List.map_congr_left fun c' _ => ?_
            dsimp only [Function.comp_apply]
            split
            · rename_i he
              exact he.symm
            · rfl
          rw [hrefs]
          exact hn
        · intro c
          rw [lastNamed_snoc, List.mem_map]
          constructor
          · rintro ⟨c', hc', rfl⟩
            split
            · exact ⟨.inl rfl, hx⟩
            · rename_i hne
              obtain ⟨hlast, ht⟩ := (hmem c').1 hc'
              exact ⟨.inr ⟨hlast, fun he => hne he.symm⟩, ht⟩
          · rintro ⟨rfl | ⟨hlast, hne⟩, ht⟩
            · obtain ⟨c', hc', he⟩ := List.any_eq_true.1 hany
              exact ⟨c', hc', if_pos (by simpa using he)⟩
            · exact ⟨c, (hmem c).2 ⟨hlast, ht⟩, if_neg fun he => hne he.symm⟩
      · rename_i hany
        have hfresh : ∀ c' ∈ inTargets targets cs, c'.entityRef ≠ x.entityRef := fun c' hc' he =>
          hany (List.any_eq_true.2 ⟨c', hc', by simpa using he⟩)
        constructor
        · rw [List.map_append, List.nodup_append]
          refine ⟨hn, List.nodup_singleton _, fun a ha b hb he => ?_⟩
          obtain ⟨c', hc', rfl⟩ := List.mem_map.1 ha
          exact hfresh c' hc' (he.trans (List.mem_singleton.1 hb))
        · intro c
          rw [lastNamed_snoc, List.mem_append, List.mem_singleton, hmem]
          constructor
          · rintro (⟨hlast, ht⟩ | rfl)
            · exact ⟨.inr ⟨hlast, fun he => hfresh c ((hmem c).2 ⟨hlast, ht⟩) he.symm⟩, ht⟩
            · exact ⟨.inl rfl, hx⟩
          · rintro ⟨rfl | ⟨hlast, -⟩, ht⟩
            · exact .inr rfl
            · exact .inl ⟨hlast, ht⟩
    · have hstep : inTargets targets (cs ++ [x]) = inTargets targets cs := by simp [inTargets, hx]
      rw [hstep]
      refine ⟨hn, fun c => ?_⟩
      rw [hmem, lastNamed_snoc]
      constructor
      · rintro ⟨hlast, ht⟩
        exact ⟨.inr ⟨hlast, fun he => hx (he ▸ ht)⟩, ht⟩
      · rintro ⟨rfl | ⟨hlast, -⟩, ht⟩
        · exact absurd ht hx
        · exact ⟨hlast, ht⟩

/-- A mention is decided for the target whose last candidate is strictly above the last ones of the other targets. -/
theorem decideMention_iff {m : MentionRow} {targets : List String} {target : String} : decideMention m targets = some target ↔
    ∃ c, LastNamed m.candidates c ∧ c.entityRef ∈ targets ∧ c.entityRef = target ∧
      ∀ c', LastNamed m.candidates c' → c'.entityRef ∈ targets → c'.entityRef ≠ target → c'.confidence < c.confidence := by
  obtain ⟨hn, hmem⟩ := inTargets_spec targets m.candidates
  have hsame : ∀ {c c' : MentionCandidate}, c ∈ inTargets targets m.candidates → c' ∈ inTargets targets m.candidates →
      c.entityRef = c'.entityRef → c = c' := fun hc hc' he => List.inj_on_of_nodup_map hn hc hc' he
  unfold decideMention
  cases hmax : firstMax (fun c c' => decide (c.confidence < c'.confidence)) (inTargets targets m.candidates) with
  | none =>
    refine iff_of_false nofun ?_
    rintro ⟨c, hlast, ht, -, -⟩
    have hne : inTargets targets m.candidates ≠ [] := List.ne_nil_of_mem ((hmem c).2 ⟨hlast, ht⟩)
    obtain ⟨c', hc'⟩ := @firstMax_isSome _ (fun c c' : MentionCandidate => decide (c.confidence < c'.confidence)) _ hne
    rw [hmax] at hc'
    cases hc'
  | some highest =>
    have hin := firstMax_mem hmax
    have hle : ∀ c ∈ inTargets targets m.candidates, c.confidence ≤ highest.confidence :=
      @firstMax_le MentionCandidate ℚ _ (fun c => c.confidence) (fun c c' => decide (c.confidence < c'.confidence))
        (fun x y => by rw [decide_eq_true_iff]) _ _ hmax
    have htie : highest ∈ (inTargets targets m.candidates).filter (·.confidence = highest.confidence) :=
      List.mem_filter.2 ⟨hin, by simp⟩
    dsimp only
    constructor
    · intro h
      split at h
      · rename_i hone
        cases h
        obtain ⟨hlast, ht⟩ := (hmem highest).1 hin
        refine ⟨highest, hlast, ht, rfl, fun c' hlast' ht' hne => ?_⟩
        have hc' := (hmem c').2 ⟨hlast', ht'⟩
        refine lt_of_le_of_ne (hle c' hc') fun he => hne ?_
        obtain ⟨x, hx⟩ := List.length_eq_one_iff.1 hone
        have h1 : highest = x := by rw [hx] at htie; exact List.mem_singleton.1 htie
        have h2 : c' ∈ (inTargets targets m.candidates).filter (·.confidence = highest.confidence) :=
          List.mem_filter.2 ⟨hc', by simpa using he⟩
        rw [hx] at h2
        rw [List.mem_singleton.1 h2, h1]
      · cases h
    · rintro ⟨c, hlast, ht, rfl, habove⟩
      have hc := (hmem c).2 ⟨hlast, ht⟩
      have heq : highest = c := by
        by_cases he : highest.entityRef = c.entityRef
        · exact hsame hin hc he
        · obtain ⟨hlast', ht'⟩ := (hmem highest).1 hin
          exact absurd (hle c hc) (not_le.2 (habove highest hlast' ht' he))
      subst heq
      have hall : ∀ c' ∈ (inTargets targets m.candidates).filter (·.confidence = highest.confidence), c' = highest := by
        intro c' hc'
        obtain ⟨hc', hconf⟩ := List.mem_filter.1 hc'
        by_cases he : c'.entityRef = highest.entityRef
        · exact hsame hc' hc he
        · obtain ⟨hlast', ht'⟩ := (hmem c').1 hc'
          have hconf' : c'.confidence = highest.confidence := by simpa using hconf
          exact absurd (habove c' hlast' ht' he) (not_lt.2 hconf'.ge)
      have hnodup : ((inTargets targets m.candidates).filter (·.confidence = highest.confidence)).Nodup :=
        (List.Nodup.of_map _ hn).filter _
      rw [if_pos]
      generalize (inTargets targets m.candidates).filter (·.confidence = highest.confidence) = ties at htie hall hnodup
      match ties with
      | [] => cases htie
      | [_] => rfl
      | x :: y :: rest =>
        have hxy : x = y := (hall x List.mem_cons_self).trans (hall y (List.mem_cons_of_mem _ List.mem_cons_self)).symm
        exact absurd (List.mem_cons.2 (.inl hxy)) (List.nodup_cons.1 hnodup).1

/-! ## What claims are decided for -/

theorem before_total (hits : List String) (s s' : String) : before hits s s' ∨ before hits s' s := by
  unfold before
  rcases Nat.lt_trichotomy (hits.count s) (hits.count s') with h | h | h
  · exact .inr (.inl h)
  · rcases le_total s s' with hs | hs
    · exact .inl (.inr ⟨h, hs⟩)
    · exact .inr (.inr ⟨h.symm, hs⟩)
  · exact .inl (.inl h)

theorem before_trans {hits : List String} {s s' s'' : String} (h : before hits s s') (h' : before hits s' s'') :
    before hits s s'' := by
  rcases h with h | ⟨h, hs⟩
  · rcases h' with h' | ⟨h', -⟩
    · exact .inl (h'.trans h)
    · exact .inl (h' ▸ h)
  · rcases h' with h' | ⟨h', hs'⟩
    · exact .inl (h ▸ h')
    · exact .inr ⟨h.trans h', hs.trans hs'⟩

theorem pairwise_before (hits targets : List String) : (targets.insertionSort (before hits)).Pairwise (before hits) := by
  have htotal : Std.Total (before hits) := ⟨before_total hits⟩
  have htrans : IsTrans String (before hits) := ⟨fun _ _ _ => before_trans⟩
  exact List.pairwise_insertionSort (before hits) targets

/-- The dominant target was hit, and no target more often. -/
theorem dominantTarget_some {hits targets : List String} {target : String} (h : dominantTarget hits targets = some target) :
    target ∈ targets ∧ 0 < hits.count target ∧ ∀ other ∈ targets, hits.count other ≤ hits.count target := by
  unfold dominantTarget at h
  split at h
  · cases h
  · have hsorted := pairwise_before hits targets
    have hmem : ∀ s, s ∈ targets.insertionSort (before hits) ↔ s ∈ targets := fun s => List.mem_insertionSort (before hits)
    generalize targets.insertionSort (before hits) = sorted at h hsorted hmem
    match sorted with
    | [] => cases h
    | first :: rest =>
      dsimp only at h
      split at h
      · rename_i hpos
        cases h
        refine ⟨(hmem _).1 List.mem_cons_self, hpos, fun other hother => ?_⟩
        rcases List.mem_cons.1 ((hmem other).2 hother) with rfl | hrest
        · exact Nat.le_refl _
        · rcases (List.pairwise_cons.1 hsorted).1 other hrest with hlt | ⟨he, -⟩
          · exact hlt.le
          · exact he.ge
      · cases h

/-- Where a target was hit there is a dominant one. -/
theorem dominantTarget_isSome {hits targets : List String} {target : String} (ht : target ∈ targets)
    (hpos : 0 < hits.count target) : ∃ first, dominantTarget hits targets = some first := by
  unfold dominantTarget
  have hne : hits.isEmpty = false := by
    cases hits with
    | nil => simp at hpos
    | cons x xs => rfl
  rw [hne, if_neg Bool.false_ne_true]
  have hsorted := pairwise_before hits targets
  have hmem : target ∈ targets.insertionSort (before hits) := (List.mem_insertionSort (before hits)).2 ht
  generalize targets.insertionSort (before hits) = sorted at hsorted hmem
  match sorted with
  | [] => cases hmem
  | first :: rest =>
    have hfirst : 0 < hits.count first := by
      rcases List.mem_cons.1 hmem with rfl | hrest
      · exact hpos
      · rcases (List.pairwise_cons.1 hsorted).1 target hrest with hlt | ⟨he, -⟩
        · omega
        · omega
    exact ⟨first, if_pos hfirst⟩

/-! ## The plan -/

/-- One requested target has a candidate strictly above all candidates of the other targets. -/
def StrictlyBest (m : MentionRow) (targets : List String) (target : String) : Prop :=
  target ∈ targets ∧ ∃ c ∈ m.candidates, c.entityRef = target ∧
    ∀ c' ∈ m.candidates, c'.entityRef ∈ targets → c'.entityRef ≠ target → c'.confidence < c.confidence

/-- The references a split discovers. -/
def discovered (t : SplitTables) (entityRef : String) : List String :=
  (t.mentionSources entityRef).map (·.mentionId) ++ (t.alignmentsOf entityRef).map (·.id) ++
    (t.assertionsOf entityRef).map (·.id)

/-- The mentions a plan assigns to a target. -/
def received (t : SplitTables) (entityRef : String) (plan : SplitPlan) (target : String) : Nat :=
  (t.mentionSources entityRef).countP fun m => plan.assignments m.mentionId = some target

/-- Every discovered reference has an entry of its own, and is assigned only when it is unambiguous. -/
structure PlanKept (t : SplitTables) (entityRef : String) (targets : List String) (plan : SplitPlan) : Prop where
  entries : (discovered t entityRef).Nodup
  once : ∀ ref ∈ discovered t entityRef, (plan.assignments ref).isSome ↔ ref ∉ plan.quarantinedRefs
  requested : ∀ ref target, plan.assignments ref = some target → target ∈ targets
  mention : ∀ m ∈ t.mentionSources entityRef, ∀ target, plan.assignments m.mentionId = some target →
    StrictlyBest m targets target
  assertion : ∀ r ∈ t.assertionsOf entityRef, ∀ target, plan.assignments r.id = some target →
    ∀ other ∈ targets, other ≠ target → received t entityRef plan other < received t entityRef plan target

/-- A target whose last candidate is strictly above the last ones of the other targets is strictly above all of theirs. -/
def LastIsBest (m : MentionRow) (targets : List String) : Prop :=
  ∀ c, LastNamed m.candidates c → c.entityRef ∈ targets →
    (∀ c', LastNamed m.candidates c' → c'.entityRef ∈ targets → c'.entityRef ≠ c.entityRef → c'.confidence < c.confidence) →
    StrictlyBest m targets c.entityRef

/-- The mentions decided for each target. -/
def hitsOf (t : SplitTables) (entityRef : String) (targets : List String) : List String :=
  (t.mentionSources entityRef).filterMap fun m => decideMention m targets

/-- No id is shared between the tables, no mention names a target twice to the loss of its better candidate, and no two
targets tie for the most mentions where there is an assertion to decide. -/
structure Unambiguous (t : SplitTables) (entityRef : String) (targets : List String) : Prop where
  alignment_ids : ∀ m ∈ t.mentionSources entityRef, ∀ r ∈ t.alignmentsOf entityRef, m.mentionId ≠ r.id
  assertion_ids : ∀ r ∈ t.assertionsOf entityRef, (∀ m ∈ t.mentionSources entityRef, m.mentionId ≠ r.id) ∧
    ∀ r' ∈ t.alignmentsOf entityRef, r'.id ≠ r.id
  mentions : ∀ m ∈ t.mentionSources entityRef, LastIsBest m targets
  untied : t.assertionsOf entityRef ≠ [] → ∀ s ∈ targets, ∀ s' ∈ targets, 0 < (hitsOf t entityRef targets).count s →
    (hitsOf t entityRef targets).count s = (hitsOf t entityRef targets).count s' →
    (∀ other ∈ targets, (hitsOf t entityRef targets).count other ≤ (hitsOf t entityRef targets).count s) → s = s'

theorem assignAll_keyed {decided : List (String × Option String)} (hn : (decided.map (·.1)).Nodup) :
    (∀ r ∈ decided, assignAll decided r.1 = r.2) ∧ ∀ ref, ref ∉ decided.map (·.1) → assignAll decided ref = none := by
  induction decided using List.reverseRecOn with
  | nil => exact ⟨nofun, fun _ _ => rfl⟩
  | append_singleton decided last ih =>
    rw [List.map_append, List.nodup_append] at hn
    obtain ⟨hn, -, hdisj⟩ := hn
    obtain ⟨hin, hout⟩ := ih hn
    have hlast : last.1 ∉ decided.map (·.1) := fun hm => hdisj _ hm last.1 (by simp) rfl
    have hstep : assignAll (decided ++ [last]) = match last.2 with
        | some target => upd (assignAll decided) last.1 (some target)
        | none => assignAll decided := by
      simp [assignAll]
    rw [hstep]
    cases hl : last.2 with
    | none =>
      refine ⟨fun r hr => ?_, fun ref href => hout ref fun hm => href (by simp [hm])⟩
      rcases List.mem_append.1 hr with hr | hr
      · exact hin r hr
      · rw [List.mem_singleton.1 hr, hl]
        exact hout _ hlast
    | some target =>
      refine ⟨fun r hr => ?_, fun ref href => ?_⟩
      · rcases List.mem_append.1 hr with hr | hr
        · have hne : r.1 ≠ last.1 := fun he => hlast (he ▸ List.mem_map_of_mem hr)
          exact (upd_ne _ _ hne).trans (hin r hr)
        · rw [List.mem_singleton.1 hr, hl]
          exact upd_self ..
      · have hne : ref ≠ last.1 := fun he => href (by simp [he])
        exact (upd_ne _ _ hne).trans (hout ref fun hm => href (by simp [hm]))

theorem decisions_refs (t : SplitTables) (entityRef : String) (targets : List String) :
    (decisions t entityRef targets).map (·.1) = discovered t entityRef := by
  simp [decisions, discovered, Function.comp_def]

/-- Each table names its references once, also a mention that is found on two routes. -/
theorem discovered_nodup_iff (t : SplitTables) (entityRef : String) : (discovered t entityRef).Nodup ↔
    (∀ m ∈ t.mentionSources entityRef, ∀ r ∈ t.alignmentsOf entityRef, m.mentionId ≠ r.id) ∧
    ∀ r ∈ t.assertionsOf entityRef, (∀ m ∈ t.mentionSources entityRef, m.mentionId ≠ r.id) ∧
      ∀ r' ∈ t.alignmentsOf entityRef, r'.id ≠ r.id := by
  have hmentions : ((t.mentionSources entityRef).map (·.mentionId)).Nodup := by
    unfold SplitTables.mentionSources
    have hrows : ((t.mentionsForEntity entityRef).map (·.mentionId)).Nodup := by
      unfold SplitTables.mentionsForEntity
      split
      · exact .nil
      · exact t.mentions_keyed.sublist (List.Sublist.map _ List.filter_sublist)
    have hid : ∀ {id : String} {m : MentionRow}, t.mention id = some m → m.mentionId = id := fun h => by
      simpa using List.find?_some h
    rw [List.map_append, List.nodup_append]
    refine ⟨hrows, ?_, ?_⟩
    · have hnew : ((t.eventResolvedMentionIds entityRef).filter
          fun id => id ∉ (t.mentionsForEntity entityRef).map (·.mentionId)).Nodup := (List.nodup_dedup _).filter _
      generalize (t.eventResolvedMentionIds entityRef).filter _ = new at hnew
      induction new with
      | nil => exact .nil
      | cons id new ih =>
        rw [List.nodup_cons] at hnew
        cases hm : t.mention id with
        | none =>
          rw [List.filterMap_cons_none hm]
          exact ih hnew.2
        | some m =>
          rw [List.filterMap_cons_some hm, List.map_cons, List.nodup_cons]
          refine ⟨fun hin => ?_, ih hnew.2⟩
          obtain ⟨m', hm', he⟩ := List.mem_map.1 hin
          obtain ⟨id', hid', hfound⟩ := List.mem_filterMap.1 hm'
          exact hnew.1 (hid hm ▸ he ▸ (hid hfound).symm ▸ hid')
    · intro a ha b hb he
      obtain ⟨m, hm, rfl⟩ := List.mem_map.1 hb
      obtain ⟨id, hin, hfound⟩ := List.mem_filterMap.1 hm
      have hnot := (List.mem_filter.1 hin).2
      rw [decide_eq_true_iff] at hnot
      exact hnot (hid hfound ▸ he ▸ ha)
  have halignments : ((t.alignmentsOf entityRef).map (·.id)).Nodup :=
    t.alignments_keyed.sublist (List.Sublist.map _ List.filter_sublist)
  have hassertions : ((t.assertionsOf entityRef).map (·.id)).Nodup :=
    t.assertions_keyed.sublist (List.Sublist.map _ List.filter_sublist)
  unfold discovered
  rw [List.nodup_append, List.nodup_append]
  constructor
  · rintro ⟨⟨-, -, h1⟩, -, h2⟩
    refine ⟨fun m hm r hr => h1 _ (List.mem_map_of_mem hm) _ (List.mem_map_of_mem hr), fun r hr => ⟨fun m hm => ?_, fun r' hr' => ?_⟩⟩
    · exact h2 _ (List.mem_append_left _ (List.mem_map_of_mem hm)) _ (List.mem_map_of_mem hr)
    · exact h2 _ (List.mem_append_right _ (List.mem_map_of_mem hr')) _ (List.mem_map_of_mem hr)
  · rintro ⟨h1, h2⟩
    refine ⟨⟨hmentions, halignments, fun a ha b hb => ?_⟩, hassertions, fun a ha b hb => ?_⟩
    · obtain ⟨m, hm, rfl⟩ := List.mem_map.1 ha
      obtain ⟨r, hr, rfl⟩ := List.mem_map.1 hb
      exact h1 m hm r hr
    · obtain ⟨r, hr, rfl⟩ := List.mem_map.1 hb
      rcases List.mem_append.1 ha with ha | ha
      · obtain ⟨m, hm, rfl⟩ := List.mem_map.1 ha
        exact (h2 r hr).1 m hm
      · obtain ⟨r', hr', rfl⟩ := List.mem_map.1 ha
        exact (h2 r hr).2 r' hr'

theorem decideMention_congr {m : MentionRow} {targets targets' : List String} (h : ∀ s, s ∈ targets' ↔ s ∈ targets) :
    decideMention m targets' = decideMention m targets := by
  refine Option.ext fun target => ?_
  simp only [decideMention_iff, h]

theorem decideAlignment_mem {r : AlignmentRow} {targets : List String} {target : String}
    (h : decideAlignment r targets = some target) : target ∈ targets := by
  have hall : ∀ s ∈ [r.leftRef, r.rightRef].filter (· ∈ targets), s ∈ targets := fun s hs => by
    simpa using (List.mem_filter.1 hs).2
  unfold decideAlignment at h
  generalize [r.leftRef, r.rightRef].filter (· ∈ targets) = sides at h hall
  match sides with
  | [] => cases h
  | [ref] =>
    cases h
    exact hall _ (List.mem_singleton_self _)
  | ref :: ref' :: rest =>
    dsimp only at h
    split at h
    · cases h
      exact hall _ List.mem_cons_self
    · cases h

/-- Whatever is decided is decided for a target. -/
theorem decisions_requested {t : SplitTables} {entityRef : String} {targets : List String} {ref target : String}
    (h : (ref, some target) ∈ decisions t entityRef targets) : target ∈ targets := by
  unfold decisions at h
  rw [List.mem_append, List.mem_append] at h
  rcases h with (h | h) | h
  · obtain ⟨m, -, he⟩ := List.mem_map.1 h
    obtain ⟨c, -, ht, rfl, -⟩ := decideMention_iff.1 (Prod.mk.inj he).2
    exact ht
  · obtain ⟨r, -, he⟩ := List.mem_map.1 h
    exact decideAlignment_mem (Prod.mk.inj he).2
  · obtain ⟨r, -, he⟩ := List.mem_map.1 h
    exact (dominantTarget_some (Prod.mk.inj he).2).1

/-- A split that is planned puts every reference in exactly one place and guesses none if and only if no id is shared
between the tables, no mention loses its better candidate, and no two targets tie where an assertion is to be decided. -/
theorem split_plan_iff {t : SplitTables} {entityRef : String} {targets : List String} {plan : SplitPlan}
    (h : enumerate t entityRef targets = .ok plan) : PlanKept t entityRef targets plan ↔ Unambiguous t entityRef targets := by
  unfold enumerate at h
  split at h
  · cases h
  have hmem : ∀ s, s ∈ targets.insertionSort (· ≤ ·) ↔ s ∈ targets := fun s => List.mem_insertionSort (· ≤ ·)
  have hsame : ∀ m : MentionRow, decideMention m (targets.insertionSort (· ≤ ·)) = decideMention m targets := fun m =>
    decideMention_congr hmem
  generalize hsorted : targets.insertionSort (· ≤ ·) = sorted at h hmem hsame
  have hassign : plan.assignments = assignAll (decisions t entityRef sorted) := by cases h; rfl
  have hquarantined : ∀ ref, ref ∈ plan.quarantinedRefs ↔ (ref, none) ∈ decisions t entityRef sorted := by
    intro ref
    cases h
    rw [List.mem_insertionSort, List.mem_dedup, List.mem_map]
    constructor
    · rintro ⟨⟨ref', d⟩, hr, rfl⟩
      obtain ⟨hr, hd⟩ := List.mem_filter.1 hr
      obtain rfl : d = none := Option.isNone_iff_eq_none.1 hd
      exact hr
    · exact fun hr => ⟨_, List.mem_filter.2 ⟨hr, rfl⟩, rfl⟩
  have hhits : ((t.mentionSources entityRef).map fun m => (m.mentionId, decideMention m sorted)).filterMap (·.2) =
      hitsOf t entityRef targets := by
    rw [List.filterMap_map]
    exact List.filterMap_congr fun m _ => hsame m
  by_cases hn : (discovered t entityRef).Nodup
  case neg =>
    refine iff_of_false (fun hk => hn hk.entries) fun hu => hn ?_
    exact (discovered_nodup_iff t entityRef).2 ⟨hu.alignment_ids, hu.assertion_ids⟩
  obtain ⟨hin, hout⟩ := assignAll_keyed (by rw [decisions_refs]; exact hn : ((decisions t entityRef sorted).map (·.1)).Nodup)
  -- what is assigned is what was decided
  have hmention : ∀ m ∈ t.mentionSources entityRef, plan.assignments m.mentionId = decideMention m targets := by
    intro m hm
    rw [hassign, ← hsame]
    exact hin _ (List.mem_append_left _ (List.mem_append_left _ (List.mem_map.2 ⟨m, hm, rfl⟩)))
  have hassertion : ∀ r ∈ t.assertionsOf entityRef, plan.assignments r.id = dominantTarget (hitsOf t entityRef targets) sorted := by
    intro r hr
    rw [hassign, ← hhits]
    exact hin _ (List.mem_append_right _ (List.mem_map.2 ⟨r, hr, rfl⟩))
  have hreceived : ∀ target, received t entityRef plan target = (hitsOf t entityRef targets).count target := by
    intro target
    unfold received hitsOf
    generalize t.mentionSources entityRef = ms at hmention
    induction ms with
    | nil => rfl
    | cons m ms ih =>
      have ih' := ih fun m' hm' => hmention m' (List.mem_cons_of_mem _ hm')
      rw [List.countP_cons, ih', hmention m List.mem_cons_self]
      cases hd : decideMention m targets with
      | none => simp [hd]
      | some s => simp [hd, List.count_cons]
  have honce : ∀ ref ∈ discovered t entityRef, (plan.assignments ref).isSome ↔ ref ∉ plan.quarantinedRefs := by
    intro ref href
    rw [← decisions_refs t entityRef sorted] at href
    obtain ⟨⟨ref, d⟩, hr, rfl⟩ := List.mem_map.1 href
    rw [hquarantined, hassign, hin _ hr]
    cases d with
    | none => exact iff_of_false Bool.false_ne_true fun hnot => hnot hr
    | some target =>
      refine iff_of_true rfl fun hnone => ?_
      have hboth := (hin (ref, some target) hr).symm.trans (hin (ref, none) hnone)
      cases hboth
  have hrequested : ∀ ref target, plan.assignments ref = some target → target ∈ targets := by
    intro ref target ha
    rw [hassign] at ha
    by_cases href : ref ∈ (decisions t entityRef sorted).map (·.1)
    · obtain ⟨⟨ref, d⟩, hr, rfl⟩ := List.mem_map.1 href
      rw [hin _ hr] at ha
      subst ha
      exact (hmem _).1 (decisions_requested hr)
    · rw [hout ref href] at ha
      cases ha
  obtain ⟨hids, hids'⟩ := (discovered_nodup_iff t entityRef).1 hn
  constructor
  · intro hk
    refine ⟨hids, hids', fun m hm c hlast ht habove => ?_, fun hne s hs s' hs' hpos heq htop => ?_⟩
    · refine hk.mention m hm c.entityRef ?_
      rw [hmention m hm]
      exact decideMention_iff.2 ⟨c, hlast, ht, rfl, habove⟩
    · obtain ⟨r, hr⟩ := List.exists_mem_of_ne_nil _ hne
      obtain ⟨first, hfirst⟩ := dominantTarget_isSome ((hmem s).2 hs) hpos
      obtain ⟨hft, -, hmost⟩ := dominantTarget_some hfirst
      have hall := hk.assertion r hr first ((hassertion r hr).trans hfirst)
      simp only [hreceived] at hall
      have htop' := htop first ((hmem _).1 hft)
      have hmost' := hmost s ((hmem _).2 hs)
      have h1 : s = first := by
        by_contra hc
        have := hall s hs hc
        omega
      have h2 : s' = first := by
        by_contra hc
        have := hall s' hs' hc
        omega
      exact h1.trans h2.symm
  · intro hu
    refine ⟨hn, honce, hrequested, fun m hm target ha => ?_, fun r hr target ha other hother hne => ?_⟩
    · rw [hmention m hm] at ha
      obtain ⟨c, hlast, ht, rfl, habove⟩ := decideMention_iff.1 ha
      exact hu.mentions m hm c hlast ht habove
    · rw [hassertion r hr] at ha
      obtain ⟨ht, hpos, hmost⟩ := dominantTarget_some ha
      rw [hreceived, hreceived]
      have hle := hmost other ((hmem _).2 hother)
      refine lt_of_le_of_ne hle fun heq => hne ?_
      refine (hu.untied (List.ne_nil_of_mem hr) target ((hmem _).1 ht) other hother hpos heq.symm fun o ho => ?_).symm
      exact hmost o ((hmem _).2 ho)

/-- Two mentions that an alias event attaches to `a`, and an assertion about it. -/
def tiedTables (second : String) : SplitTables where
  mentions := [⟨"m1", none, [⟨"b", 1, "candidate"⟩]⟩, ⟨"m2", none, [⟨second, 1, "candidate"⟩]⟩]
  assertions := [{ id := "x", subjectRef := some "a" }]
  events := ["m1", "m2"].map fun id =>
    { seq := 1, eventType := .EntityMentioned, eventVersion := 1, schemaUrl := ""
      payload := [("entity_id", .str "a"), ("mention_id", .str id)], authority := none, confidence := none, generatedBy := []
      correlationId := none, causationId := none, createdBy := none, idempotencyKey := none }

/-- Both are decided for one target. -/
theorem split_plan_agreed : ∃ plan, enumerate (tiedTables "b") "a" ["b", "c"] = .ok plan ∧
    PlanKept (tiedTables "b") "a" ["b", "c"] plan := by
  have hsources : (tiedTables "b").mentionSources "a" = (tiedTables "b").mentions := rfl
  have hmentions : ∀ m ∈ (tiedTables "b").mentionSources "a", m.mentionId ≠ "x" ∧ m.candidates = [⟨"b", 1, "candidate"⟩] := by
    rw [hsources]
    simp [tiedTables]
  have hassertions : ∀ r ∈ (tiedTables "b").assertionsOf "a", r.id = "x" := by
    intro r hr
    rw [List.mem_singleton.1 (List.mem_filter.1 hr).1]
  have hhits : hitsOf (tiedTables "b") "a" ["b", "c"] = ["b", "b"] := by decide +kernel
  have halignments : ∀ r, r ∉ (tiedTables "b").alignmentsOf "a" := fun r hr => by cases hr
  refine ⟨_, rfl, (split_plan_iff rfl).2 ⟨fun _ _ r hr => absurd hr (halignments r), fun r hr => ⟨fun m hm => ?_,
    fun r' hr' => absurd hr' (halignments r')⟩, fun m hm c hlast _ _ => ?_, fun _ s hs s' hs' hpos heq _ => ?_⟩⟩
  · rw [hassertions r hr]
    exact (hmentions m hm).1
  · have hc := hlast.mem
    rw [(hmentions m hm).2, List.mem_singleton] at hc
    subst hc
    refine ⟨by decide, _, hlast.mem, rfl, fun c' hc' _ hne => ?_⟩
    rw [(hmentions m hm).2, List.mem_singleton] at hc'
    exact absurd (congrArg MentionCandidate.entityRef hc') hne
  · rw [hhits] at hpos heq
    have hb : ∀ u : String, 0 < ["b", "b"].count u → u = "b" := fun u hu => by
      have := List.count_pos_iff.1 hu
      simpa using this
    rw [hb s hpos, hb s' (heq ▸ hpos)]

/-- The assertion goes to the first of two targets with one mention each. -/
theorem tie_is_guessed : ¬ ∀ (t : SplitTables) (entityRef : String) (targets : List String) (plan : SplitPlan),
    enumerate t entityRef targets = .ok plan → PlanKept t entityRef targets plan := by
  intro h
  have hk := h (tiedTables "c") "a" ["b", "c"] _ rfl
  have hr : ⟨"x", some "a", none⟩ ∈ (tiedTables "c").assertionsOf "a" :=
    List.mem_filter.2 ⟨List.mem_singleton_self _, rfl⟩
  exact absurd (hk.assertion _ hr "b" (by decide +kernel) "c" (by decide) (by decide)) (by decide +kernel)

end Umd.Resolution
