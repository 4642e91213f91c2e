import Umd.Lib.UnionFind
import Umd.Resolution.Candidates
/-!
# The resolution service

`EntityResolutionService.resolve_mentions`: mentions that carry an entity seed their
component, co-reference edges join components, and every component becomes a canonical
entity or stays unresolved. The iteration order of a set comes from outside.
-/

namespace Umd.Resolution

open Umd.Lib Umd.Reducer Umd.Projections

/-! ## What it gives -/

/-- The memberships of a cluster; a tuple is a source with its work and continuity. -/
structure ClusterMemberships where
  sourceIds : List String
  workIds : List String
  continuityIds : List String
  tuples : List (String × Option String × Option String)
deriving DecidableEq

/-- `CanonicalEntity` -/
structure CanonicalEntity where
  ref : String
  label : String
  sourceId : String
  entityType : Option String
  memberMentionIds : List String
  confidence : ℚ
  state : String
  supportRefs : List String
  aliases : List String
  generatedBy : Dict
  memberships : ClusterMemberships
  classification : String

/-- `AliasMapping` -/
structure AliasMapping where
  aliasRef : String
  canonicalRef : String
  aliasText : String
  canonicalText : String
  confidence : ℚ

/-- `UnresolvedMention` -/
structure UnresolvedMention where
  mentionId : String
  text : String
  reason : String
  candidates : List String := []
  classification : String
deriving DecidableEq

/-- `Contradiction` -/
structure Contradiction where
  subjectRef : String
  contradictingRef : String
  reason : String

/-- The metadata of an `ESTABLISH` command. -/
structure EstablishMetadata where
  canonicalType : Option String
  displayLabel : String
  aliases : List String
  supportRefs : List String
  memberships : ClusterMemberships
  state : String
  confidence : ℚ
  classification : String
  generatedBy : Dict

/-- `ResolutionCommand` -/
structure ResolutionCommand where
  kind : String
  entityId : String
  targetEntityId : Option String := none
  refs : List String := []
  assignments : List (String × String) := []
  reason : String
  mention : Option SourceMention := none
  metadata : Option EstablishMetadata := none

/-- `ResolutionBatch`; the assignments are the pairs that were stored. -/
structure ResolutionBatch where
  sourceId : String
  canonicalEntities : List CanonicalEntity
  aliasMappings : List AliasMapping
  assignments : List (String × String)
  unresolved : List UnresolvedMention
  contradictions : List Contradiction
  commands : List ResolutionCommand
  confidence : ℚ
  state : String
  classification : String
  generatedBy : Dict

/-! ## What it is given -/

/-- The mentions with the scope they are resolved in. -/
structure Task where
  mentions : List SourceMention
  sourceId : String
  generatedBy : Dict
  workId : Option String := none
  continuityId : Option String := none
  scope : List String := []

/-- `ResolutionInput`, of whose memberships the source ids are read. -/
structure ResolutionInput where
  sourceId : String
  mentions : List SourceMention := []
  generatedBy : Dict := []
  workId : Option String := none
  continuityId : Option String := none
  sourceIds : List String := []

/-- `_source_id_of` -/
def sourceIdOf (ms : List SourceMention) : String :=
  ((ms.find? fun m => m.sourceId ≠ "").map (·.sourceId)).getD "source:unknown"

/-- The provenance with its defaults. -/
def withDefaults (gb : Dict) : Dict :=
  let gb := gb.setdefault "generator" (.str "EntityResolutionService")
  if (gb.get "config_digest").truthy then gb else gb.setdefault "config_digest" (.str "umd-entity-resolution@1")

/-- The task of a list of mentions. -/
def listTask (ms : List SourceMention) (generatedBy : Dict) : Task where
  mentions := ms
  sourceId := sourceIdOf ms
  generatedBy := withDefaults generatedBy

/-- The task of a `ResolutionInput`. -/
def ResolutionInput.task (i : ResolutionInput) (generatedBy : Dict) : Task where
  mentions := i.mentions
  sourceId := if i.sourceId = "" then sourceIdOf i.mentions else i.sourceId
  generatedBy := withDefaults (if i.generatedBy.isEmpty then generatedBy else i.generatedBy)
  workId := i.workId
  continuityId := i.continuityId
  scope := i.sourceIds

/-- `mention_by_id.values()` -/
def mentionById (ms : List SourceMention) : List SourceMention :=
  (firsts (ms.map (·.mentionId))).filterMap (byMentionId ms)

/-- `sorted(ms, key=lambda m: m.mention_id)` -/
def sortedById (ms : List SourceMention) : List SourceMention := ms.insertionSort fun m m' => m.mentionId ≤ m'.mentionId

/-- `sorted(set(xs))` -/
def sortedSet (xs : List String) : List String := xs.dedup.insertionSort (· ≤ ·)

/-! ## `_UnionFind` -/

/-- `_UnionFind` -/
structure Linker where
  uf : UnionFind String String := .start
  contradictions : List Contradiction := []
  seen : List (String × String) := []

namespace Linker

/-- `find` -/
def find (l : Linker) (x : String) : String := (l.uf.find x).2

/-- `seed_of` -/
def seedOf (l : Linker) (x : String) : Option String := l.uf.seed (l.find x)

/-- `_record_contradiction` -/
def recordContradiction (l : Linker) (seedA seedB ref : String) : Linker :=
  let key := if seedA ≤ seedB then (seedA, seedB) else (seedB, seedA)
  if l.seen.contains key then l
  else
    let reason := if ref = "" then "conflicting canonical assignments"
      else "conflicting canonical assignments surfaced by " ++ ref
    { l with seen := l.seen ++ [key], contradictions := l.contradictions ++ [⟨seedA, seedB, reason⟩] }

/-- `union`, where the mention `a` triggers it. -/
def union (l : Linker) (a b : String) : Linker :=
  match l.uf.union a b with
  | (uf, .conflict seedA seedB) => { l with uf := uf }.recordContradiction seedA seedB a
  | (uf, _) => { l with uf := uf }

/-- Pass 1 at one mention. -/
def seedWith (l : Linker) (m : SourceMention) : Linker :=
  match nonEmpty m.entityId with
  | none => l
  | some entity =>
    let (uf, root) := l.uf.find m.mentionId
    { l with uf := if uf.seed root = none then uf.setSeed root (some entity) else uf }

end Linker

section
variable (u : Unicode)

/-! ## Edges -/

/-- `_content_digest`, as the text it is taken of. -/
def contentDigest (m : SourceMention) : Option String :=
  (nonEmpty m.contextText).map fun text =>
    shaDigits (if normalizeName u text = "" then u.casefold text else normalizeName u text)

/-- `_structural_locator` -/
def structuralLocator (m : SourceMention) : Option String :=
  if (m.provenance.get "locator").truthy then some ("loc:" ++ pyStr (m.provenance.get "locator"))
  else (nonEmpty m.segmentId).map ("seg:" ++ ·)

/-- `_coincident_no_shared_content` -/
def coincidentNoSharedContent (a b : SourceMention) : Bool :=
  (structuralLocator a).isSome && structuralLocator a = structuralLocator b &&
    !((contentDigest u a).isSome && contentDigest u a = contentDigest u b)

/-- `_candidate_target` -/
def candidateTarget (table : List SourceMention) (ref : String) : Option SourceMention :=
  (table.find? fun m => m.mentionId = ref).or (table.find? fun m => nonEmpty m.entityId = some ref)

/-- The edges of pass 2 at one mention. -/
def candidateEdges (floor : ℚ) (table : List SourceMention) (m : SourceMention) (candidates : List MentionCandidate) :
    List (String × String) :=
  candidates.filterMap fun c =>
    if c.confidence < floor then none
    else
      match candidateTarget table c.entityRef with
      | none => none
      | some target => if coincidentNoSharedContent u m target then none else some (m.mentionId, target.mentionId)

/-- The canonical name an alias declares. -/
def canonicalName (m : SourceMention) : Json := m.metadata.get "canonical_name"

/-- The edge of pass 2b at one mention. -/
def aliasEdge (table : List SourceMention) (m : SourceMention) : Except PyError (Option (String × String)) :=
  if (canonicalName m).truthy then
    match canonicalName m with
    | .str cn =>
      let norm := if normalizeName u cn = "" then u.casefold cn else normalizeName u cn
      let real := sortedById (table.filter fun t =>
        t.sourceId = m.sourceId && t.mentionId ≠ m.mentionId && !(canonicalName t).truthy)
      let target := (real.find? fun t => normalizeName u t.mentionText = norm).or
        (real.find? fun t => t.normalizedForms.contains norm || normalizeName u t.mentionText = norm)
      .ok (target.map fun t => (m.mentionId, t.mentionId))
    | _ => .error .attributeError
  else .ok none

/-! ## A cluster -/

/-- `_canonical_label` -/
def canonicalLabel (members : List SourceMention) : String :=
  let real := members.filter fun m => !(canonicalName m).truthy
  let candidates := mentionById (if real.isEmpty then members else real)
  ((firstMax (fun m m' => m.mentionText.length < m'.mentionText.length ||
    (m.mentionText.length = m'.mentionText.length && m.mentionId < m'.mentionId)) candidates).map (·.mentionText)).getD ""

/-- `_cluster_confidence` -/
def clusterConfidence (members : List SourceMention) : ℚ :=
  let confs := members.filterMap (·.confidence)
  if confs.isEmpty then 0 else roundTo 4 (confs.sum / confs.length)

/-- The entity types of the members, each once. -/
def entityTypes (members : List SourceMention) : List String :=
  firsts ((members.map fun m => m.metadata.get "entity_type").filter Json.truthy |>.map pyStr)

/-- `_entity_type_of`: of several types, the one that the set lists first. -/
def entityTypeOf (setOrder : List String → List String) (members : List SourceMention) : Option String :=
  match entityTypes members with
  | [] => none
  | [t] => some t
  | ts => (setOrder ts).head?

/-- `_evidence_tokens` -/
def evidenceTokens (m : SourceMention) : List String :=
  let segment := (nonEmpty m.segmentId).toList.map ("seg:" ++ ·)
  let locator := if (m.provenance.get "locator").truthy then ["loc:" ++ pyStr (m.provenance.get "locator")] else []
  let content := (contentDigest u m).toList.map ("ctx:" ++ ·)
  let found := segment ++ locator ++ content
  if found.isEmpty then
    ["text:" ++ if normalizeName u m.mentionText = "" then u.casefold m.mentionText else normalizeName u m.mentionText]
  else found

/-- `_membership_tuples` -/
def membershipTuples (t : Task) (members : List SourceMention) : List (String × Option String × Option String) :=
  let key (x : String × Option String × Option String) : List String := [x.1, x.2.1.getD "", x.2.2.getD ""]
  firsts ((members.filterMap fun m =>
    if m.sourceId = "" then none
    else some (m.sourceId, nonEmpty ((nonEmpty m.workId).or t.workId), nonEmpty ((nonEmpty m.continuityId).or t.continuityId))
    ).insertionSort fun x y => key x ≤ key y)

/-- The scope's own id where no member carries one. -/
def orScope (ids : List String) (scope : Option String) : List String := if ids.isEmpty then (nonEmpty scope).toList else ids

/-- `_cluster_memberships` -/
def clusterMemberships (t : Task) (members : List SourceMention) : ClusterMemberships :=
  let sources := sortedSet (members.filterMap fun m => nonEmpty (some m.sourceId))
  { sourceIds := if sources.isEmpty then t.scope else sources
    workIds := orScope (sortedSet (members.filterMap fun m => nonEmpty m.workId)) t.workId
    continuityIds := orScope (sortedSet (members.filterMap fun m => nonEmpty m.continuityId)) t.continuityId
    tuples := membershipTuples t members }

/-- `canonical_entity_ref` -/
def canonicalEntityRef (tokens : List String) : String :=
  "entity:canonical:" ++ shaDigits ("\x1f".intercalate (sortedSet tokens))

/-- `_evidence_canonical_ref` -/
def evidenceCanonicalRef (members : List SourceMention) (label : String) (memberships : ClusterMemberships) : String :=
  canonicalEntityRef (["label:" ++ if normalizeName u label = "" then u.casefold label else normalizeName u label] ++
    memberships.workIds.map ("work:" ++ ·) ++ memberships.continuityIds.map ("cont:" ++ ·) ++
    (sortedById members).flatMap (evidenceTokens u))

/-- The evidence ref of a cluster. -/
def clusterRef (t : Task) (members : List SourceMention) : String :=
  evidenceCanonicalRef u members (canonicalLabel members) (clusterMemberships t members)

/-- `_seeded_refs` -/
def seededRefs (table : List SourceMention) (candidates : List MentionCandidate) : List String :=
  firsts ((candidates.map (·.entityRef)).filter fun ref =>
    !(table.any (·.mentionId = ref)) && table.any (·.entityId = some ref))

/-- `_should_stay_unresolved` -/
def shouldStayUnresolved (table : List SourceMention) (m : SourceMention) (candidates : List MentionCandidate) : Bool :=
  m.confidenceState = "AMBIGUOUS" || 2 ≤ (seededRefs table candidates).length

/-- `_to_unresolved` -/
def toUnresolved (m : SourceMention) (candidates : List MentionCandidate) : UnresolvedMention :=
  let refs := candidates.map (·.entityRef)
  let reason := if 2 ≤ (firsts refs).length then "conflicting" else "ambiguous"
  ⟨m.mentionId, m.mentionText, reason, refs, if reason = "ambiguous" then "ambiguous" else "unresolved"⟩

/-! ## `resolve_mentions` -/

/-- What is added to the batch for one component. -/
structure Decision where
  entities : List CanonicalEntity := []
  aliasMappings : List AliasMapping := []
  assignments : List (String × String) := []
  unresolved : List UnresolvedMention := []
  commands : List ResolutionCommand := []

/-- What is added for a member beside its assignment. -/
def memberCommands (ref label : String) (first : Option String) (m : SourceMention) : List ResolutionCommand :=
  ⟨"MENTION", ref, none, [m.mentionId], [], "entity resolution", some { m with entityId := some ref }, none⟩ ::
    if some m.mentionId ≠ first ∧ m.mentionText ≠ label then
      [⟨"ALIAS", m.mentionId, some ref, [m.mentionId], [(m.mentionId, ref)], "alias resolution", none, none⟩]
    else []

def memberAlias (ref label : String) (first : Option String) (conf : ℚ) (m : SourceMention) : Option AliasMapping :=
  if some m.mentionId ≠ first ∧ m.mentionText ≠ label then
    some ⟨m.mentionId, ref, m.mentionText, label, if m.confidence.getD 0 = 0 then conf else m.confidence.getD 0⟩
  else none

/-- A component that becomes a canonical entity; `seed` is the existing one it carries. -/
def establish (setOrder : List String → List String) (t : Task) (members : List SourceMention) (seed : Option String) : Decision :=
  let label := canonicalLabel members
  let conf := clusterConfidence members
  let entityType := entityTypeOf setOrder members
  let ids := members.map (·.mentionId)
  let memberships := clusterMemberships t members
  let ref := seed.getD (clusterRef u t members)
  let state := if seed.isSome then "CONFIRMED" else "PROBABLE"
  let classification := if seed.isSome then "accepted" else "probable"
  let aliases := sortedSet ((members.map (·.mentionText)).filter (· ≠ label))
  let metadata : EstablishMetadata := ⟨entityType, label, aliases, ids, memberships, state, conf, classification, t.generatedBy⟩
  { entities := [⟨ref, label, t.sourceId, entityType, ids, conf, state, ids, aliases, t.generatedBy, memberships, classification⟩]
    aliasMappings := members.filterMap (memberAlias ref label ids.head? conf)
    assignments := ids.map fun id => (id, ref)
    commands := ⟨"ESTABLISH", ref, some ref, ids, ids.map fun id => (id, ref), "canonical establishment", none, some metadata⟩ ::
      members.flatMap (memberCommands ref label ids.head?) }

/-- A member of clusters that derive one ref. -/
def collidedMention (m : SourceMention) : UnresolvedMention := ⟨m.mentionId, m.mentionText, "ambiguous", [], "ambiguous"⟩

/-- The state of the passes: the candidates of each mention id and the joined components. -/
structure Linked where
  hits : List (String × List MentionCandidate)
  linker : Linker

namespace Linked

/-- `hits[mention_id].candidates` -/
def candidatesOf (l : Linked) (id : String) : List MentionCandidate := (lastValue l.hits id).getD []

/-- `roots`, in the order its keys come in. -/
def roots (l : Linked) (t : Task) : List String := firsts (t.mentions.map fun m => l.linker.find m.mentionId)

/-- `sorted(roots[root], key=lambda m: m.mention_id)` -/
def members (l : Linked) (t : Task) (root : String) : List SourceMention :=
  sortedById (t.mentions.filter fun m => l.linker.find m.mentionId = root)

/-- `new_ref_by_root.values()` -/
def newRefs (l : Linked) (t : Task) : List String :=
  ((l.roots t).filter fun root => l.linker.seedOf root = none).map fun root => clusterRef u t (l.members t root)

/-- `_collided_refs` -/
def collided (l : Linked) (t : Task) (ref : String) : Bool := 1 < (l.newRefs u t).count ref

/-- What becomes of the component of a root. -/
def decideRoot (setOrder : List String → List String) (l : Linked) (t : Task) (root : String) : Decision :=
  let members := l.members t root
  let seed := l.linker.seedOf root
  match members, seed with
  | [single], none =>
    if shouldStayUnresolved (mentionById t.mentions) single (l.candidatesOf single.mentionId) then
      { unresolved := [toUnresolved single (l.candidatesOf single.mentionId)] }
    else if l.collided u t (clusterRef u t [single]) then { unresolved := [collidedMention single] }
    else establish u setOrder t [single] none
  | members, none =>
    if l.collided u t (clusterRef u t members) then { unresolved := members.map collidedMention }
    else establish u setOrder t members none
  | members, some seed => establish u setOrder t members (some seed)

/-- `sorted(roots, key=lambda r: (uf.seed_of(r) or "", r))` -/
def sortedRoots (l : Linked) (t : Task) : List String :=
  let key (r : String) : List String := [(l.linker.seedOf r).getD "", r]
  (l.roots t).insertionSort fun r r' => key r ≤ key r'

end Linked

/-- The edges the passes consider, in their order. -/
def consideredEdges (floor : ℚ) (t : Task) (hits : List (String × List MentionCandidate)) : Except PyError (List (String × String)) := do
  let table := mentionById t.mentions
  let candidates := (sortedById t.mentions).flatMap fun m => candidateEdges u floor table m ((lastValue hits m.mentionId).getD [])
  let aliases ← (sortedById t.mentions).mapM (aliasEdge u table)
  return candidates ++ aliases.filterMap id

/-- The hits of every mention, each over the whole index. -/
def allHits (policy : CandidatePolicy) (t : Task) : Except PyError (List (String × List MentionCandidate)) :=
  t.mentions.mapM fun m => (link u policy t.mentions m).map fun candidates => (m.mentionId, candidates)

/-- Passes 1, 2 and 2b. -/
def passes (t : Task) (edges : List (String × String)) : Linker :=
  edges.foldl (fun l e => l.union e.1 e.2) (t.mentions.foldl Linker.seedWith {})

/-- The batch of the decisions. -/
def batchOf (t : Task) (linker : Linker) (decisions : List Decision) : ResolutionBatch :=
  let entities := decisions.flatMap (·.entities)
  let unresolved := decisions.flatMap (·.unresolved)
  { sourceId := t.sourceId
    canonicalEntities := entities
    aliasMappings := decisions.flatMap (·.aliasMappings)
    assignments := decisions.flatMap (·.assignments)
    unresolved := unresolved
    contradictions := linker.contradictions
    commands := decisions.flatMap (·.commands)
    confidence := if entities.isEmpty then 0 else roundTo 4 ((entities.map (·.confidence)).sum / entities.length)
    state := if !unresolved.isEmpty then "AMBIGUOUS" else if !entities.isEmpty then "CONFIRMED" else "UNKNOWN"
    classification :=
      if !unresolved.isEmpty then (if unresolved.any (·.reason = "ambiguous") then "ambiguous" else "unresolved")
      else if !entities.isEmpty then (if entities.all (·.classification = "accepted") then "accepted" else "probable")
      else "unresolved"
    generatedBy := t.generatedBy }

/-- `resolve_mentions` -/
def resolveMentions (setOrder : List String → List String) (policy : CandidatePolicy) (floor : ℚ) (t : Task) :
    Except PyError ResolutionBatch := do
  let hits ← allHits u policy t
  let edges ← consideredEdges u floor t hits
  let linked : Linked := ⟨hits, passes t edges⟩
  return batchOf t linked.linker ((linked.sortedRoots t).map (linked.decideRoot u setOrder t))

end

end Umd.Resolution
