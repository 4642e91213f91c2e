import Umd.Lib.Bfs
import Umd.Jobs.Dag
/-!
# Selective descendant invalidation

The planner: breadth-first over a lineage map, from the direct dependents of a
root. What it targets are the descendants of the root, each once
(`mem_plan_iff`, `plan_nodup`), whatever the lineage; the other stages of the graph are
counted as unaffected (`plan_exact`). Over the stage lineage the upstream ones come
first (`plan_ordered`).
-/

namespace Umd.Jobs

open Umd.Lib

variable {α : Type} [DecidableEq α] [ToString α]

structure StageTarget (α : Type) where
  stage : α
  scope : String
  causation : String
  reason : String

structure StageTargets (α : Type) where
  causation : String
  scope : String
  rootStage : Option α
  targets : List (StageTarget α)
  unaffected : Nat

/-- The nodes the targets name. -/
def StageTargets.stages (t : StageTargets α) : List α := t.targets.map (·.stage)

namespace Lineage

/-- What the queue can still be given: every edge once. -/
def edges (l : Lineage α) : Nat := ((l.map (·.1)).dedup.map fun a => (l.get a).length).sum

/-- `set(lineage.keys()) | {c for kids in lineage.values() for c in kids}` -/
def allStages (l : Lineage α) : List α := (l.map (·.1) ++ l.flatMap (·.2)).dedup

end Lineage

/-- The descendants of `stage`, in the order the queue gives them. -/
def descendants (lineage : Lineage α) (stage : α) : List α :=
  bfs lineage.get ((lineage.get stage).length + lineage.edges) (lineage.get stage) []

/-- `InvalidationPlanner.plan`; `None` is the empty lineage. -/
def plan (causation scope : String) (stage : Option α) (lineage : Lineage α) : StageTargets α :=
  match stage with
  | none => { causation, scope, rootStage := none, targets := [], unaffected := lineage.length }
  | some stage =>
    let seen := descendants lineage stage
    { causation, scope, rootStage := some stage
      targets := seen.map fun node =>
        { stage := node, scope, causation
          reason := "descendant of " ++ toString stage ++ " (selective invalidation)" }
      unaffected := (lineage.allStages.filter fun s => s ∉ stage :: seen).length }

omit [ToString α] in
theorem get_of_not_mem {lineage : Lineage α} {a : α} (h : a ∉ (lineage.map (·.1)).dedup) : lineage.get a = [] := by
  have h : lineage.lookup a = none := by
    rw [List.lookup_eq_none_iff]
    intro p hp
    rw [bne_iff_ne]
    rintro rfl
    exact h (List.mem_dedup.2 (List.mem_map.2 ⟨p, hp, rfl⟩))
  rw [Lineage.get, h, Option.getD_none]

omit [ToString α] in
/-- The queue runs empty, and the descendants are what dependents of dependents reach. -/
theorem mem_descendants_iff (lineage : Lineage α) (stage x : α) :
    x ∈ descendants lineage stage ↔ Relation.TransGen (fun a b => b ∈ lineage.get a) stage x := by
  rw [descendants, mem_bfs_iff (fun a ha => get_of_not_mem ha) (by simp [turns, Lineage.edges]),
    Relation.TransGen.head'_iff]

theorem stages_plan (causation scope : String) (stage : α) (lineage : Lineage α) :
    (plan causation scope (some stage) lineage).stages = descendants lineage stage := by
  simp [plan, StageTargets.stages, Function.comp_def]

/-- No target twice, whatever the lineage. -/
theorem plan_nodup (causation scope : String) (stage : Option α) (lineage : Lineage α) :
    (plan causation scope stage lineage).stages.Nodup := by
  cases stage with
  | none => exact List.nodup_nil
  | some stage => rw [stages_plan]; exact bfs_nodup

/-- The targets are the descendants of the root, whatever the lineage. -/
theorem mem_plan_iff (causation scope : String) (stage x : α) (lineage : Lineage α) :
    x ∈ (plan causation scope (some stage) lineage).stages ↔ Relation.TransGen (fun a b => b ∈ lineage.get a) stage x := by
  rw [stages_plan, mem_descendants_iff]

/-- A stage of the graph: dependents are listed for it, or it is one of them. -/
def Lineage.IsStage (lineage : Lineage α) (x : α) : Prop := ∃ stage kids, (stage, kids) ∈ lineage ∧ (x = stage ∨ x ∈ kids)

omit [ToString α] in
theorem mem_allStages {lineage : Lineage α} {x : α} : x ∈ lineage.allStages ↔ lineage.IsStage x := by
  simp only [Lineage.allStages, Lineage.IsStage, List.mem_dedup, List.mem_append, List.mem_map, List.mem_flatMap, Prod.exists]
  constructor
  · rintro (⟨stage, kids, hl, rfl⟩ | ⟨stage, kids, hl, hx⟩)
    · exact ⟨stage, kids, hl, .inl rfl⟩
    · exact ⟨stage, kids, hl, .inr hx⟩
  · rintro ⟨stage, kids, hl, rfl | hx⟩
    · exact .inl ⟨x, kids, hl, rfl⟩
    · exact .inr ⟨stage, kids, hl, hx⟩

/-- What is neither the root nor a target is counted. -/
theorem unaffected_plan (causation scope : String) (stage : α) (lineage : Lineage α) :
    (plan causation scope (some stage) lineage).unaffected =
      Set.ncard {x | lineage.IsStage x ∧ x ≠ stage ∧ x ∉ (plan causation scope (some stage) lineage).stages} := by
  have hset : {x | lineage.IsStage x ∧ x ≠ stage ∧ x ∉ (plan causation scope (some stage) lineage).stages} =
      ((lineage.allStages.filter fun s => s ∉ stage :: descendants lineage stage).toFinset : Set α) := by
    ext x
    rw [Set.mem_ofPred_eq, stages_plan, List.coe_toFinset, Set.mem_ofPred_eq, List.mem_filter, mem_allStages]
    simp
  have hnodup : (lineage.allStages.filter fun s => s ∉ stage :: descendants lineage stage).Nodup :=
    (List.nodup_dedup _).filter _
  rw [hset, Set.ncard_coe_finset, List.toFinset_card_of_nodup hnodup]
  rfl

/-- **Over every lineage the queue runs empty, and the targets it leaves are the stages reached from the root by one edge or
more, each once; the other stages of the graph but the root are the unaffected ones.** -/
theorem plan_exact (causation scope : String) (stage : α) (lineage : Lineage α) :
    (∃ n, ((Worklist.step lineage.get)^[n] { queue := lineage.get stage }).queue = [] ∧
      ((Worklist.step lineage.get)^[n] { queue := lineage.get stage }).listed =
        (plan causation scope (some stage) lineage).stages) ∧
    (∀ x, x ∈ (plan causation scope (some stage) lineage).stages ↔ Relation.TransGen (fun a b => b ∈ lineage.get a) stage x) ∧
    (plan causation scope (some stage) lineage).stages.Nodup ∧
    (plan causation scope (some stage) lineage).unaffected =
      Set.ncard {x | lineage.IsStage x ∧ x ≠ stage ∧ x ∉ (plan causation scope (some stage) lineage).stages} := by
  have hends := @worklist_ends α _ lineage.get (lineage.map (·.1)).dedup (fun a ha => get_of_not_mem ha)
    ((lineage.get stage).length + lineage.edges) { queue := lineage.get stage } (by simp [turns, Lineage.edges])
  refine ⟨⟨_, hends, ?_⟩, fun x => mem_plan_iff causation scope stage x lineage, plan_nodup causation scope (some stage) lineage,
    unaffected_plan causation scope stage lineage⟩
  rw [stages_plan, worklist_listed]
  rfl

/-- Over the stage lineage the order of the queue is a dependency order. -/
theorem plan_ordered (causation scope : String) (stage : Stage) :
    DependencyOrdered (plan causation scope (some stage) stageDependents).stages := by
  rw [stages_plan, dependencyOrdered_iff]
  revert stage
  decide

end Umd.Jobs
