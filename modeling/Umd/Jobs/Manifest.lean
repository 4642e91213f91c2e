import Umd.Lib.JsonText
import Umd.Jobs.Dag
/-!
# Stage manifests and idempotency keys

The serializable input of one stage run and the digest material of its key. A
digest stands for its material: two digests are equal exactly when what they
are taken of is.
-/

namespace Umd.Jobs

open Umd.Lib

/-- `build_dag_universe(dag_version="base")` -/
def baseUniverse : String := "v1-dag:base"

structure StageManifest where
  jobId : String
  stageName : Stage
  sourceId : Option String := none
  segmentId : Option String := none
  dagUniverse : String := baseUniverse
  evidenceRefs : List String := []
  inputManifest : Dict := []
  stageSchemaVersion : Int := 1
  toolVersions : Dict := []
  configDigest : Option String := none

/-- `deterministic_uuid`: the digest by its material. -/
def deterministicUuid (material : String) : String := material

/-- `_stable_json` -/
def stableJson (value : Json) : String := dumpsWith "," ":" value

/-- `sorted` of strings. -/
def sortedRefs (refs : List String) : List String := refs.insertionSort (· ≤ ·)

namespace StageManifest

/-- The parts of the material, in the order they are joined. -/
def materialParts (m : StageManifest) : List String :=
  -- `job_id` is deliberately left out
  ["umd/stage-manifest",
   "v=" ++ m.dagUniverse,
   "stage=" ++ m.stageName.name,
   "source=" ++ m.sourceId.getD "",
   "segment=" ++ m.segmentId.getD "",
   "evidence=" ++ stableJson (.arr ((sortedRefs m.evidenceRefs).map .str)),
   "input=" ++ stableJson (.obj m.inputManifest),
   "schema=" ++ toString m.stageSchemaVersion,
   "tools=" ++ stableJson (.obj m.toolVersions),
   "config=" ++ m.configDigest.getD ""]

def idempotencyMaterial (m : StageManifest) : String := "\x1f".intercalate m.materialParts

def idempotencyKey (m : StageManifest) : String := deterministicUuid m.idempotencyMaterial

end StageManifest

/-- `_manifest_for`; an empty universe is the base one. -/
def manifestFor (jobId : String) (sourceId : Option String) (dagUniverse : String) (stage : Stage)
    (evidenceRefs : List String) (rerunCausation : Option String) : StageManifest where
  jobId := jobId
  stageName := stage
  sourceId := sourceId
  dagUniverse := if dagUniverse = "" then baseUniverse else dagUniverse
  evidenceRefs := evidenceRefs
  inputManifest :=
    ("source_id", .str (sourceId.getD "")) :: (rerunCausation.map fun c => ("rerun_causation", Json.str c)).toList

/-! ## What a key says of its manifest -/

/-- The text before the evidence. -/
def StageManifest.materialHead (m : StageManifest) : List Char :=
  ("umd/stage-manifest\x1fv=" ++ m.dagUniverse ++ "\x1fstage=").toList ++ m.stageName.name.toList ++
    '\x1f' :: ("source=" ++ m.sourceId.getD "" ++ "\x1fsegment=" ++ m.segmentId.getD "" ++ "\x1fevidence=").toList

/-- The text after the evidence. -/
def StageManifest.materialTail (m : StageManifest) : List Char :=
  ("\x1finput=" ++ stableJson (.obj m.inputManifest) ++ "\x1fschema=" ++ toString m.stageSchemaVersion ++ "\x1ftools=" ++
    stableJson (.obj m.toolVersions) ++ "\x1fconfig=" ++ m.configDigest.getD "").toList

theorem idempotencyKey_toList (m : StageManifest) :
    m.idempotencyKey.toList =
      m.materialHead ++ (stableJson (.arr ((sortedRefs m.evidenceRefs).map .str))).toList ++ m.materialTail := by
  simp [StageManifest.idempotencyKey, deterministicUuid, StageManifest.idempotencyMaterial, StageManifest.materialParts,
    StageManifest.materialHead, StageManifest.materialTail, String.intercalate_cons_cons, String.toList_append]

/-- The key of a manifest depends on its evidence as a sorted list, and gives that list back. -/
theorem idempotencyKey_evidence {m : StageManifest} {refs : List String} :
    ({ m with evidenceRefs := refs } : StageManifest).idempotencyKey = m.idempotencyKey ↔
      sortedRefs refs = sortedRefs m.evidenceRefs := by
  constructor
  · intro h
    have := congrArg String.toList h
    rw [idempotencyKey_toList, idempotencyKey_toList, List.append_assoc, List.append_assoc] at this
    exact dumps_texts_inj (List.append_cancel_left this)
  · intro h
    simp only [StageManifest.idempotencyKey, StageManifest.idempotencyMaterial, StageManifest.materialParts, h]

/-- Two texts up to a separator that neither has. -/
theorem append_sep_inj {sep : Char} {xs ys rest rest' : List Char} (hx : sep ∉ xs) (hy : sep ∉ ys)
    (h : xs ++ sep :: rest = ys ++ sep :: rest') : xs = ys := by
  induction xs generalizing ys with
  | nil =>
    cases ys with
    | nil => rfl
    | cons y ys =>
      cases h
      simp at hy
  | cons x xs ih =>
    cases ys with
    | nil =>
      cases h
      simp at hx
    | cons y ys =>
      simp only [List.cons_append, List.cons.injEq] at h
      obtain ⟨rfl, h⟩ := h
      rw [ih (fun hm => hx (by simp [hm])) (fun hm => hy (by simp [hm])) h]

theorem name_injective {s t : Stage} (h : s.name = t.name) : s = t := by
  revert s t
  decide

/-- **Within a universe a key belongs to one stage.** -/
theorem stage_of_key {m m' : StageManifest} (hu : m.dagUniverse = m'.dagUniverse)
    (h : m.idempotencyKey = m'.idempotencyKey) : m.stageName = m'.stageName := by
  have hsep : ∀ s : Stage, '\x1f' ∉ s.name.toList := by decide
  have := congrArg String.toList h
  rw [idempotencyKey_toList, idempotencyKey_toList, StageManifest.materialHead, StageManifest.materialHead, hu] at this
  simp only [List.append_assoc, List.cons_append] at this
  exact name_injective (String.toList_injective (append_sep_inj (hsep _) (hsep _) (List.append_cancel_left this)))

/-- Within a universe and a stage a key belongs to one spelling of the source. -/
theorem source_of_key {m m' : StageManifest} (hu : m.dagUniverse = m'.dagUniverse) (hs : m.stageName = m'.stageName)
    (hm : '\x1f' ∉ (m.sourceId.getD "").toList) (hm' : '\x1f' ∉ (m'.sourceId.getD "").toList)
    (h : m.idempotencyKey = m'.idempotencyKey) : m.sourceId.getD "" = m'.sourceId.getD "" := by
  have hsegment : ∀ m : StageManifest, ("source=" ++ m.sourceId.getD "" ++ "\x1fsegment=" ++ m.segmentId.getD "" ++
      "\x1fevidence=").toList = "source=".toList ++ ((m.sourceId.getD "").toList ++
        '\x1f' :: ("segment=" ++ m.segmentId.getD "" ++ "\x1fevidence=").toList) := fun m => by
    simp [String.toList_append]
  have := congrArg String.toList h
  rw [idempotencyKey_toList, idempotencyKey_toList, StageManifest.materialHead, StageManifest.materialHead, hu, hs,
    hsegment, hsegment] at this
  simp only [List.append_assoc, List.cons_append] at this
  have := List.append_cancel_left (List.append_cancel_left this)
  rw [List.cons.injEq] at this
  exact String.toList_injective (append_sep_inj hm hm' (List.append_cancel_left this.2))

end Umd.Jobs
