import Umd.Resolution.Establish
import Umd.Resolution.Mapping
import Umd.Resolution.OneCanonical
/-!
# The application of a batch

`_apply_resolution`: the commands of a batch in their order, each an append of its own
under an idempotency key: of a mention its id, of an alias the pair, of an establishment
the canonical with its metadata. A command whose key the log has leaves the log and
`current_state` as they are.
-/

namespace Umd.Resolution

open Umd.Lib Umd.Events Umd.Reducer Umd.Ledger Umd.Projections

/-! ## Commands -/

def texts (xs : List String) : Json := .arr (xs.map .str)

section
variable (float : ℚ → Number)

/-- The memberships of an `ESTABLISH` command, without the tuples. -/
def ClusterMemberships.dict (m : ClusterMemberships) : Dict :=
  [("source_ids", texts m.sourceIds), ("work_ids", texts m.workIds), ("continuity_ids", texts m.continuityIds)]

/-- `command_metadata`. -/
def EstablishMetadata.dict (m : EstablishMetadata) : Dict :=
  [("canonical_type", Json.ofStr? m.canonicalType), ("display_label", .str m.displayLabel), ("aliases", texts m.aliases),
    ("support_refs", texts m.supportRefs), ("memberships", .obj m.memberships.dict),
    ("membership_tuples", .arr (m.memberships.tuples.map fun t => .arr [.str t.1, Json.ofStr? t.2.1, Json.ofStr? t.2.2])),
    ("state", .str m.state), ("confidence", .num (float m.confidence)), ("classification", .str m.classification),
    ("generated_by", .obj m.generatedBy)]

/-- The arguments of `establish` for a command. -/
def EstablishMetadata.establishment (m : EstablishMetadata) (reason : String) : Establishment where
  metadata := m.dict float
  reason := some (reasonOr (some reason) "entity resolution")
  distinct := by simp [EstablishMetadata.dict, Dict.keys]
  distinctMemberships := by
    intro d hd
    obtain rfl : m.memberships.dict = d := by simpa [EstablishMetadata.dict, Dict.get, Dict.get?] using hd
    simp [ClusterMemberships.dict, Dict.keys]
  listedAliases := by simp [EstablishMetadata.dict, Dict.get, Dict.get?, texts]

/-- `SourceMention.to_event`. -/
def mentionEvent (m : SourceMention) : Except PyError SemanticEvent :=
  (eventGeneratedBy (m.provenance.get "generated_by")).map fun generatedBy => {
    eventType := .EntityMentioned
    authority := some (if m.confidenceState = "USER_CONFIRMED" then userOverride else "machine")
    confidence := m.confidence.map float
    generatedBy := generatedBy
    payload := [("mention_id", .str m.mentionId), ("source_id", .str m.sourceId), ("entity_id", Json.ofStr? m.entityId),
      ("segment_id", Json.ofStr? m.segmentId), ("mention_text", .str m.mentionText), ("normalized_forms", texts m.normalizedForms),
      ("speaker_label", Json.ofStr? m.speakerLabel)] }

/-- The arguments of `establish`; the metadata of a command is empty where none is given. -/
def ResolutionCommand.establishment (cmd : ResolutionCommand) : Establishment :=
  match cmd.metadata with
  | some m => m.establishment float cmd.reason
  | none => { metadata := [], reason := some (reasonOr (some cmd.reason) "entity resolution"), distinct := List.nodup_nil
              distinctMemberships := nofun, listedAliases := nofun }

variable (refused : SourceMention → Option PyError)

/-- `MentionService.record`, with the row of the mention left out but for what its insert raises. -/
def record (t : Tables) (m : SourceMention) : Tables × Except ResolveError CommitResult :=
  if pyUuid m.mentionId = none then (t, .error (.ledger (.python .valueError))) else
  match mentionEvent float m with
  | .error e => (t, .error (.ledger (.python e)))
  | .ok ev => lift (t.completeAndAppend (keyed ev m.mentionId) fun t' => match refused m with
      | some e => .error e
      | none => .ok t'.other)

/-- `Resolver.establish` on the tables. -/
def establishOn (t : Tables) (canonical : String) (e : Establishment) : Tables × Except ResolveError CommitResult :=
  match establishEvent canonical e with
  | .error err => (t, .error (.ledger (.python err)))
  | .ok ev => lift (t.append (keyed ev (establishKey canonical e.metadata)))

/-- The body of the loop over the commands. -/
def applyCommand (t : Tables) (cmd : ResolutionCommand) : Tables × Except ResolveError Unit :=
  let done (r : Tables × Except ResolveError CommitResult) := (r.1, r.2.map fun _ => ())
  let reason := some (reasonOr (some cmd.reason) "entity resolution")
  match cmd.kind, cmd.mention with
  | "MENTION", some m => done (record float refused t m)
  | "ALIAS", _ => done (resolverAlias t cmd.entityId ((nonEmpty cmd.targetEntityId).getD cmd.entityId) reason)
  | "MERGE", _ => done (resolverMerge t cmd.entityId (if cmd.refs.isEmpty then [cmd.entityId] else cmd.refs) cmd.assignments reason)
  | "ESTABLISH", _ => done (establishOn t cmd.entityId (cmd.establishment float))
  | _, _ => (t, .ok ())

/-- The commands in turn, up to the first that raises. -/
def applyCommands (t : Tables) : List ResolutionCommand → Tables × Except ResolveError Unit
  | [] => (t, .ok ())
  | cmd :: cmds =>
    match applyCommand float refused t cmd with
    | (t', .ok ()) => applyCommands t' cmds
    | (t', .error e) => (t', .error e)

/-- `_apply_resolution`, with the rows of the unassigned mentions left out. -/
def applyResolution (t : Tables) (batch : ResolutionBatch) : Tables × Except ResolveError Unit := applyCommands float refused t batch.commands

end

/-! ## The clusters of a batch -/

/-- A component that became a canonical entity. -/
structure Cluster where
  members : List SourceMention
  ref : String
  label : String
  metadata : EstablishMetadata

namespace Cluster

def ids (c : Cluster) : List String := c.members.map (·.mentionId)

def first (c : Cluster) : Option String := c.ids.head?

def commands (c : Cluster) : List ResolutionCommand :=
  ⟨"ESTABLISH", c.ref, some c.ref, c.ids, c.ids.map fun id => (id, c.ref), "canonical establishment", none, some c.metadata⟩ ::
    c.members.flatMap (memberCommands c.ref c.label c.first)

def assignments (c : Cluster) : List (String × String) := c.ids.map fun id => (id, c.ref)

end Cluster

/-- What a batch of mentions with distinct ids is made of. -/
structure Clustered (batch : ResolutionBatch) (cs : List Cluster) : Prop where
  commands : batch.commands = cs.flatMap Cluster.commands
  assignments : batch.assignments = cs.flatMap Cluster.assignments
  distinct : (cs.flatMap Cluster.ids).Nodup
  named : ∀ c ∈ cs, c.ref ≠ ""
  supported : ∀ c ∈ cs, c.metadata.supportRefs = c.ids
  nonempty : ∀ c ∈ cs, c.ids ≠ []
  state : ∀ c ∈ cs, c.metadata.state = "CONFIRMED" ∨ c.metadata.state = "PROBABLE"

section
variable {u : Unicode} {setOrder : List String → List String} {policy : CandidatePolicy} {floor : ℚ} {t : Task} {batch : ResolutionBatch}

/-- The cluster of an established component. -/
def clusterAt (u : Unicode) (setOrder : List String → List String) (t : Task) (members : List SourceMention) (seed : Option String) :
    Cluster where
  members := members
  ref := seed.getD (clusterRef u t members)
  label := canonicalLabel members
  metadata := ⟨entityTypeOf setOrder members, canonicalLabel members,
    sortedSet ((members.map (·.mentionText)).filter (· ≠ canonicalLabel members)), members.map (·.mentionId), clusterMemberships t members,
    if seed.isSome then "CONFIRMED" else "PROBABLE", clusterConfidence members, if seed.isSome then "accepted" else "probable",
    t.generatedBy⟩

theorem establish_cluster (members : List SourceMention) (seed : Option String) :
    (establish u setOrder t members seed).commands = (clusterAt u setOrder t members seed).commands ∧
      (establish u setOrder t members seed).assignments = (clusterAt u setOrder t members seed).assignments := ⟨rfl, rfl⟩

theorem clusterRef_ne (members : List SourceMention) : clusterRef u t members ≠ "" := by
  unfold clusterRef evidenceCanonicalRef canonicalEntityRef
  intro h
  have := congrArg String.length h
  simp at this

open Classical in
/-- The clusters of the components that do not stay unresolved. -/
noncomputable def clustersAt (u : Unicode) (setOrder : List String → List String) (l : Linked) (t : Task) (roots : List String) : List Cluster :=
  (roots.filter fun root => ¬ l.Stays u t root).map fun root => clusterAt u setOrder t (l.members t root) (l.linker.seedOf root)

theorem decided_clusters (l : Linked) (roots : List String) :
    (roots.map (l.decideRoot u setOrder t)).flatMap (·.commands) = (clustersAt u setOrder l t roots).flatMap Cluster.commands ∧
      (roots.map (l.decideRoot u setOrder t)).flatMap (·.assignments) = (clustersAt u setOrder l t roots).flatMap Cluster.assignments := by
  induction roots with
  | nil => exact ⟨rfl, rfl⟩
  | cons root roots ih =>
    unfold clustersAt at ih ⊢
    rw [List.map_cons, List.flatMap_cons, List.flatMap_cons, ih.1, ih.2]
    by_cases hs : l.Stays u t root
    · obtain ⟨-, hassign, -, hcommands⟩ := l.decideRoot_stays u setOrder t hs
      rw [hassign, hcommands, List.filter_cons_of_neg (by simpa using hs)]
      exact ⟨rfl, rfl⟩
    · rw [l.decideRoot_established u setOrder t hs, List.filter_cons_of_pos (by simpa using hs), List.map_cons, List.flatMap_cons,
        List.flatMap_cons]
      exact ⟨rfl, rfl⟩

theorem members_ids (hn : (t.mentions.map (·.mentionId)).Nodup) (l : Linked) (root : String) :
    ((l.members t root).map (·.mentionId)).Nodup := by
  have hperm : (l.members t root).Perm (t.mentions.filter fun m => l.linker.find m.mentionId = root) := List.perm_insertionSort _ _
  exact (hperm.map _).nodup_iff.2 (hn.sublist (List.filter_sublist.map _))

theorem nonEmpty_ne {o : Option String} {s : String} (h : nonEmpty o = some s) : s ≠ "" := by
  unfold nonEmpty at h
  simpa using (Option.filter_eq_some_iff.1 h).2

/-- A batch of mentions with distinct ids is made of clusters that share none. -/
theorem resolveMentions_clusters (hn : (t.mentions.map (·.mentionId)).Nodup)
    (h : resolveMentions u setOrder policy floor t = .ok batch) : ∃ cs, Clustered batch cs := by
  obtain ⟨hits, edges, -, -, rfl⟩ := resolveMentions_ok h
  let l : Linked := ⟨hits, passes t edges⟩
  have hmem : ∀ c ∈ clustersAt u setOrder l t (l.sortedRoots t), ∃ root ∈ l.sortedRoots t,
      c = clusterAt u setOrder t (l.members t root) (l.linker.seedOf root) := by
    intro c hc
    obtain ⟨root, hroot, rfl⟩ := List.mem_map.1 hc
    exact ⟨root, (List.mem_filter.1 hroot).1, rfl⟩
  refine ⟨clustersAt u setOrder l t (l.sortedRoots t), (decided_clusters l _).1, (decided_clusters l _).2, ?_, fun c hc => ?_, fun c hc => ?_,
    fun c hc => ?_, fun c hc => ?_⟩
  · unfold clustersAt
    rw [List.flatMap_map, List.nodup_flatMap]
    constructor
    · exact fun root _ => members_ids hn l root
    · have hroots : (l.sortedRoots t).Nodup := (l.sortedRoots_perm t).nodup_iff.2 (nodup_firsts _)
      refine (hroots.filter _).imp fun {root root'} hne => ?_
      intro id hid hid'
      obtain ⟨m, hm, rfl⟩ := List.mem_map.1 hid
      obtain ⟨m', hm', heq⟩ := List.mem_map.1 hid'
      refine hne ?_
      rw [← ((l.mem_members t).1 hm).2, ← ((l.mem_members t).1 hm').2, heq]
  · obtain ⟨root, hroot, rfl⟩ := hmem c hc
    obtain ⟨m, -, hfind⟩ := (l.mem_sortedRoots t).1 hroot
    show (l.linker.seedOf root).getD _ ≠ ""
    cases hseed : l.linker.seedOf root with
    | none => exact clusterRef_ne _
    | some e =>
      have hroot' : (clusters t edges).seed m.mentionId = some e := by
        rw [← seedOf_find, show (passes t edges).find m.mentionId = root from hfind]
        exact hseed
      obtain ⟨_, -, -, hcarried⟩ := seed_carried hroot'
      obtain ⟨x, -, hx⟩ := List.exists_of_findSome?_eq_some hcarried
      exact nonEmpty_ne hx
  · obtain ⟨root, -, rfl⟩ := hmem c hc
    rfl
  · obtain ⟨root, hroot, rfl⟩ := hmem c hc
    obtain ⟨m, hm, hfind⟩ := (l.mem_sortedRoots t).1 hroot
    intro hnil
    have hin : m.mentionId ∈ (l.members t root).map (·.mentionId) := List.mem_map_of_mem ((l.mem_members t).2 ⟨hm, hfind⟩)
    rw [show (l.members t root).map (·.mentionId) = [] from hnil] at hin
    cases hin
  · obtain ⟨root, -, rfl⟩ := hmem c hc
    show (if _ then _ else _) = _ ∨ (if _ then _ else _) = _
    split
    · exact .inl rfl
    · exact .inr rfl

end

end Umd.Resolution
