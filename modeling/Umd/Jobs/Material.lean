import Umd.Jobs.Manifest
import Umd.Lib.JsonCompact
import Umd.Sandbox.Fields
/-!
# What the material of a key says

A manifest across a durable boundary (`to_dict`, `from_dict`), and what two manifests
agree on when the material of their keys is the same text (`material_iff`): all of their
inputs but the job, the evidence in any order.
-/

namespace Umd.Jobs

open Umd.Lib Umd.Sandbox

/-- The keyword arguments of `StageManifest(...)`. -/
structure ManifestArgs where
  jobId : String
  stageName : String
  sourceId : Option String := none
  segmentId : Option String := none
  dagUniverse : Option String := none
  evidenceRefs : Option (List String) := none
  inputManifest : Option Dict := none
  stageSchemaVersion : Int := 1
  toolVersions : Option Dict := none
  configDigest : Option String := none

/-- The stage of that name, if `STAGE_ORDER` has one. -/
def stageNamed (name : String) : Option Stage := stageOrder.find? (·.name == name)

namespace StageManifest

/-- `StageManifest(...)` -/
def init (args : ManifestArgs) : Except PyError StageManifest :=
  match stageNamed args.stageName with
  | none => .error .valueError
  | some stage => .ok {
      jobId := args.jobId
      stageName := stage
      sourceId := args.sourceId
      segmentId := args.segmentId
      -- an empty universe is the base one
      dagUniverse := if args.dagUniverse.getD "" = "" then baseUniverse else args.dagUniverse.getD ""
      evidenceRefs := args.evidenceRefs.getD []
      inputManifest := args.inputManifest.getD []
      stageSchemaVersion := args.stageSchemaVersion
      toolVersions := args.toolVersions.getD []
      configDigest := args.configDigest }

def toDict (m : StageManifest) : Dict :=
  [("job_id", .str m.jobId),
   ("stage_name", .str m.stageName.name),
   ("source_id", .ofStr? m.sourceId),
   ("segment_id", .ofStr? m.segmentId),
   ("dag_universe", .str m.dagUniverse),
   ("evidence_refs", ofStrs (sortedRefs m.evidenceRefs)),
   ("input_manifest", .obj m.inputManifest),
   ("stage_schema_version", ofInt m.stageSchemaVersion),
   ("tool_versions", .obj (sortFields m.toolVersions)),
   ("config_digest", .ofStr? m.configDigest)]

/-- `data[k]` -/
def required (data : Dict) (k : String) : Except PyError Json :=
  match data.get? k with
  | some v => .ok v
  | none => .error .keyError

/-- A `list[str]`. -/
def asStrs : Json → Except PyError (List String)
  | .arr xs => xs.mapM asStr
  | _ => .error .typeError

/-- `from_dict`, each field at its type. -/
def fromDict (data : Dict) : Except PyError StageManifest := do
  let jobId ← asStr (← required data "job_id")
  let stageName ← asStr (← required data "stage_name")
  let sourceId ← optional asStr (data.get "source_id")
  let segmentId ← optional asStr (data.get "segment_id")
  let dagUniverse ← optional asStr (data.get "dag_universe")
  let evidenceRefs ← optional asStrs (data.get "evidence_refs")
  let inputManifest ← optional asDict (data.get "input_manifest")
  let stageSchemaVersion ← asInt ((data.get? "stage_schema_version").getD (ofInt 1))
  let toolVersions ← optional asDict (data.get "tool_versions")
  let configDigest ← optional asStr (data.get "config_digest")
  init { jobId, stageName, sourceId, segmentId, dagUniverse, evidenceRefs, inputManifest, stageSchemaVersion, toolVersions, configDigest }

end StageManifest

/-- A manifest that the constructor made. -/
def Constructed (m : StageManifest) : Prop := ∃ args, StageManifest.init args = .ok m

/-- No unit separator in the texts that are joined as they are. -/
abbrev Unseparated (m : StageManifest) : Prop :=
  '\x1f' ∉ m.dagUniverse.toList ∧ '\x1f' ∉ (m.sourceId.getD "").toList ∧ '\x1f' ∉ (m.segmentId.getD "").toList ∧
    '\x1f' ∉ (m.configDigest.getD "").toList

/-! ## Across a durable boundary -/

theorem stageNamed_name (s : Stage) : stageNamed s.name = some s := by cases s <;> rfl

/-- The constructor leaves no universe empty. -/
theorem constructed_iff {m : StageManifest} : Constructed m ↔ m.dagUniverse ≠ "" := by
  constructor
  · rintro ⟨args, h⟩
    unfold StageManifest.init at h
    split at h
    · cases h
    · cases h
      dsimp only
      split
      · exact of_decide_eq_true rfl
      · assumption
  · intro h
    refine ⟨{ m with stageName := m.stageName.name, dagUniverse := some m.dagUniverse, evidenceRefs := some m.evidenceRefs,
                     inputManifest := some m.inputManifest, toolVersions := some m.toolVersions }, ?_⟩
    simp [StageManifest.init, stageNamed_name, h]

theorem manifestFor_constructed (jobId : String) (sourceId : Option String) (dagUniverse : String) (stage : Stage)
    (evidenceRefs : List String) (rerunCausation : Option String) :
    Constructed (manifestFor jobId sourceId dagUniverse stage evidenceRefs rerunCausation) := by
  rw [constructed_iff, manifestFor]
  dsimp only
  split
  · exact of_decide_eq_true rfl
  · assumption

theorem optional_ofStr? (o : Option String) : optional asStr (.ofStr? o) = .ok o := by cases o <;> rfl

theorem asStrs_ofStrs (xs : List String) : StageManifest.asStrs (ofStrs xs) = .ok xs := by
  change (xs.map Json.str).mapM asStr = _
  induction xs with
  | nil => rfl
  | cons x xs ih => rw [List.map_cons, List.mapM_cons, ih]; rfl

/-- What comes back has its evidence and its tools in order. -/
theorem fromDict_toDict {m : StageManifest} (h : Constructed m) : StageManifest.fromDict m.toDict =
    .ok { m with evidenceRefs := sortedRefs m.evidenceRefs, toolVersions := sortFields m.toolVersions } := by
  have huniverse : m.dagUniverse ≠ "" := constructed_iff.1 h
  have hrefs : optional StageManifest.asStrs (ofStrs (sortedRefs m.evidenceRefs)) = .ok (some (sortedRefs m.evidenceRefs)) := by
    change (StageManifest.asStrs (ofStrs (sortedRefs m.evidenceRefs))).map some = _
    rw [asStrs_ofStrs]
    rfl
  have hread : StageManifest.fromDict m.toDict = (do
      let sourceId ← optional asStr (.ofStr? m.sourceId)
      let segmentId ← optional asStr (.ofStr? m.segmentId)
      let evidenceRefs ← optional StageManifest.asStrs (ofStrs (sortedRefs m.evidenceRefs))
      let configDigest ← optional asStr (.ofStr? m.configDigest)
      StageManifest.init { m with stageName := m.stageName.name, sourceId, segmentId, dagUniverse := some m.dagUniverse, evidenceRefs,
                                  inputManifest := some m.inputManifest, toolVersions := some (sortFields m.toolVersions), configDigest }) := by
    rfl
  rw [hread, optional_ofStr?, optional_ofStr?, optional_ofStr?, hrefs]
  simp [StageManifest.init, stageNamed_name, huniverse, bind, Except.bind]

/-! ## The material -/

theorem int_inj {m n : Int} (h : (toString m).toList = (toString n).toList) : m = n := by
  have hjson : (Number.dec m 0).json.toList = (Number.dec n 0).json.toList := h
  exact (Number.dec.inj (number_inj hjson)).1

theorem int_no_separator (n : Int) : '\x1f' ∉ (toString n).toList := by
  intro h
  have hatom := number_atom (.dec n 0) _ h
  cases hatom

theorem stage_no_separator (s : Stage) : '\x1f' ∉ s.name.toList := by
  revert s
  decide

/-- The texts that are joined as they are stand between separators. -/
theorem material_toList (m : StageManifest) : m.idempotencyMaterial.toList =
    "umd/stage-manifest\x1fv=".toList ++ (m.dagUniverse.toList ++ '\x1f' :: ("stage=".toList ++ (m.stageName.name.toList ++ '\x1f' ::
      ("source=".toList ++ ((m.sourceId.getD "").toList ++ '\x1f' :: ("segment=".toList ++ ((m.segmentId.getD "").toList ++ '\x1f' ::
        ("evidence=".toList ++ ((compact (ofStrs (sortedRefs m.evidenceRefs))).toList ++ '\x1f' ::
          ("input=".toList ++ ((compact (.obj m.inputManifest)).toList ++ '\x1f' :: ("schema=".toList ++
            ((toString m.stageSchemaVersion).toList ++ '\x1f' :: ("tools=".toList ++ ((compact (.obj m.toolVersions)).toList ++ '\x1f' ::
              ("config=".toList ++ (m.configDigest.getD "").toList)))))))))))))))) := by
  simp [StageManifest.idempotencyMaterial, StageManifest.materialParts, String.intercalate_cons_cons, String.toList_append, compact,
    stableJson, ofStrs]

theorem sortedRefs_iff {refs refs' : List String} : sortedRefs refs = sortedRefs refs' ↔ refs.Perm refs' := by
  constructor
  · intro h
    have hperm : (sortedRefs refs).Perm refs' := by
      rw [h]
      exact List.perm_insertionSort _ _
    exact (List.perm_insertionSort _ _).symm.trans hperm
  · intro h
    exact List.Perm.eq_of_pairwise (fun _ _ _ _ => le_antisymm) (List.pairwise_insertionSort _ _) (List.pairwise_insertionSort _ _)
      ((List.perm_insertionSort _ _).trans (h.trans (List.perm_insertionSort _ _).symm))

/-- The inputs that the material keeps. -/
def SameInputs (m m' : StageManifest) : Prop :=
  m.dagUniverse = m'.dagUniverse ∧ m.stageName = m'.stageName ∧ m.sourceId.getD "" = m'.sourceId.getD "" ∧
    m.segmentId.getD "" = m'.segmentId.getD "" ∧ m.configDigest.getD "" = m'.configDigest.getD "" ∧
    m.evidenceRefs.Perm m'.evidenceRefs ∧ (Json.obj m.inputManifest).keySorted = (Json.obj m'.inputManifest).keySorted ∧
    (Json.obj m.toolVersions).keySorted = (Json.obj m'.toolVersions).keySorted ∧ m.stageSchemaVersion = m'.stageSchemaVersion

theorem same_material {m m' : StageManifest} (h : SameInputs m m') : m.idempotencyMaterial = m'.idempotencyMaterial := by
  obtain ⟨huniverse, hstage, hsource, hsegment, hconfig, hrefs, hinput, htools, hschema⟩ := h
  apply String.toList_injective
  rw [material_toList, material_toList, huniverse, hstage, hsource, hsegment, hconfig, sortedRefs_iff.2 hrefs, compact_iff.2 hinput,
    compact_iff.2 htools, hschema]

/-- Each part is read off the material, from the left. -/
theorem same_inputs {m m' : StageManifest} (hm : Unseparated m) (hm' : Unseparated m')
    (h : m.idempotencyMaterial = m'.idempotencyMaterial) : SameInputs m m' := by
  have hjson : ∀ {j j' : Json} {rest rest' : List Char}, (compact j).toList ++ '\x1f' :: rest = (compact j').toList ++ '\x1f' :: rest' →
      j.keySorted = j'.keySorted ∧ rest = rest' := by
    intro j j' rest rest' h
    obtain ⟨hj, hrest⟩ := compact_append_inj (stops_cons rfl rest) (stops_cons rfl rest') h
    exact ⟨hj, (List.cons.inj hrest).2⟩
  have htext := congrArg String.toList h
  rw [material_toList, material_toList] at htext
  obtain ⟨huniverse, htext⟩ := append_mark_inj hm.1 hm'.1 (List.append_cancel_left htext)
  obtain ⟨hstage, htext⟩ := append_mark_inj (stage_no_separator _) (stage_no_separator _) (List.append_cancel_left htext)
  obtain ⟨hsource, htext⟩ := append_mark_inj hm.2.1 hm'.2.1 (List.append_cancel_left htext)
  obtain ⟨hsegment, htext⟩ := append_mark_inj hm.2.2.1 hm'.2.2.1 (List.append_cancel_left htext)
  obtain ⟨hrefs, htext⟩ := hjson (List.append_cancel_left htext)
  obtain ⟨hinput, htext⟩ := hjson (List.append_cancel_left htext)
  obtain ⟨hschema, htext⟩ := append_mark_inj (int_no_separator _) (int_no_separator _) (List.append_cancel_left htext)
  obtain ⟨htools, htext⟩ := hjson (List.append_cancel_left htext)
  have hrefsEq : sortedRefs m.evidenceRefs = sortedRefs m'.evidenceRefs := by
    have hcompact := compact_iff.2 hrefs
    exact @dumps_texts_inj _ _ [] [] (by rw [List.append_nil, List.append_nil]; exact congrArg String.toList hcompact)
  exact ⟨String.toList_injective huniverse, name_injective (String.toList_injective hstage), String.toList_injective hsource,
    String.toList_injective hsegment, String.toList_injective (List.append_cancel_left htext), sortedRefs_iff.1 hrefsEq, hinput, htools,
    int_inj hschema⟩

/-- A key fixes what the input manifest holds and which version of each tool was used. -/
theorem dicts_of_material {m m' : StageManifest} (hm : Unseparated m) (hm' : Unseparated m')
    (hd : m.inputManifest.keys.Nodup ∧ m.toolVersions.keys.Nodup) (hd' : m'.inputManifest.keys.Nodup ∧ m'.toolVersions.keys.Nodup)
    (h : m.idempotencyMaterial = m'.idempotencyMaterial) (k : String) :
    (m.inputManifest.get? k).map Json.keySorted = (m'.inputManifest.get? k).map Json.keySorted ∧
      (m.toolVersions.get? k).map Json.keySorted = (m'.toolVersions.get? k).map Json.keySorted := by
  obtain ⟨-, -, -, -, -, -, hinput, htools, -⟩ := same_inputs hm hm' h
  exact ⟨(keySorted_obj_iff hd.1 hd'.1).1 hinput k, (keySorted_obj_iff hd.2 hd'.2).1 htools k⟩

/-- **Manifests have the same material exactly when they agree on all their inputs but the job, and a manifest that crossed a durable
boundary has the material it had.** -/
theorem material_iff {m m' : StageManifest} (hm : Constructed m) (hs : Unseparated m) (hs' : Unseparated m') :
    (m.idempotencyMaterial = m'.idempotencyMaterial ↔ SameInputs m m') ∧
      (∀ jobId, ({ m with jobId := jobId } : StageManifest).idempotencyMaterial = m.idempotencyMaterial) ∧
      ∃ back, StageManifest.fromDict m.toDict = .ok back ∧ back.idempotencyMaterial = m.idempotencyMaterial := by
  refine ⟨⟨same_inputs hs hs', same_material⟩, fun jobId => rfl, _, fromDict_toDict hm, same_material ?_⟩
  refine ⟨rfl, rfl, rfl, rfl, rfl, List.perm_insertionSort _ _, rfl, ?_, rfl⟩
  have hsorted : sortFields (sortFields m.toolVersions) = sortFields m.toolVersions := sortFields_idem _
  rw [Json.keySorted, Json.keySorted, keySortedFields_eq, keySortedFields_eq, sortFields_map Json.keySorted, sortFields_map Json.keySorted,
    hsorted]

/-- Two jobs over one source, the evidence the other way round. -/
theorem material_iff_jobs :
    (manifestFor "job-1" (some "source-1") "" .ingest ["b", "a"] none).idempotencyMaterial =
      (manifestFor "job-2" (some "source-1") "" .ingest ["a", "b"] none).idempotencyMaterial :=
  (material_iff (manifestFor_constructed ..) (by decide +kernel) (by decide +kernel)).1.2
    ⟨rfl, rfl, rfl, rfl, rfl, List.Perm.swap .., rfl, rfl, rfl⟩

end Umd.Jobs
