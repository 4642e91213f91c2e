import Umd.Lib.Json
/-!
# The stage lineage

The stages, their dependency edges with the evidence class each edge carries,
and the dependents map the planner and the runner share. Every stage depends on
the one before it in `stageOrder`, so the transitive dependency relation is
that order (`upstream_iff`).
-/

namespace Umd.Jobs

open Umd.Lib

inductive Stage where
  | ingest
  | formatAnalysis
  | basicSegmentation
  | lowLevelExtraction
  | structuralAnalysis
  | entityResolution
  | crossSourceAlignment
  | semanticReconciliation
  | currentSearchProjection
deriving DecidableEq, Repr

/-- The text of a stage in manifests and tables. -/
def Stage.name : Stage → String
  | ingest => "INGEST"
  | formatAnalysis => "FORMAT_ANALYSIS"
  | basicSegmentation => "BASIC_SEGMENTATION"
  | lowLevelExtraction => "LOW_LEVEL_EXTRACTION"
  | structuralAnalysis => "STRUCTURAL_ANALYSIS"
  | entityResolution => "ENTITY_RESOLUTION"
  | crossSourceAlignment => "CROSS_SOURCE_ALIGNMENT"
  | semanticReconciliation => "SEMANTIC_RECONCILIATION"
  | currentSearchProjection => "CURRENT_SEARCH_PROJECTION"

instance : ToString Stage := ⟨Stage.name⟩

/-- `STAGE_ORDER`. -/
def stageOrder : List Stage :=
  [.ingest, .formatAnalysis, .basicSegmentation, .lowLevelExtraction, .structuralAnalysis, .entityResolution,
   .crossSourceAlignment, .semanticReconciliation, .currentSearchProjection]

theorem mem_stageOrder (s : Stage) : s ∈ stageOrder := by cases s <;> decide

theorem stageOrder_nodup : stageOrder.Nodup := by decide

instance : Fintype Stage := ⟨⟨stageOrder, stageOrder_nodup⟩, mem_stageOrder⟩

/-- `STAGE_ORDER.index`. -/
def Stage.index (s : Stage) : Nat := stageOrder.idxOf s

/-- `EVIDENCE_CLASSES`. -/
inductive EvidenceClass where
  | sourceBytes
  | formatAnalysis
  | segments
  | evidenceRecords
  | structuralAssertions
  | resolvedEntities
  | alignments
  | reconciledState
deriving DecidableEq, Repr

/-- `STAGE_DEPENDENCIES`. -/
def stageDependencies : List (Stage × List (Stage × EvidenceClass)) :=
  [(.ingest, []),
   (.formatAnalysis, [(.ingest, .sourceBytes)]),
   (.basicSegmentation, [(.formatAnalysis, .formatAnalysis)]),
   (.lowLevelExtraction, [(.basicSegmentation, .segments)]),
   (.structuralAnalysis, [(.lowLevelExtraction, .evidenceRecords)]),
   (.entityResolution, [(.structuralAnalysis, .structuralAssertions), (.lowLevelExtraction, .evidenceRecords)]),
   (.crossSourceAlignment, [(.entityResolution, .resolvedEntities), (.structuralAnalysis, .structuralAssertions)]),
   (.semanticReconciliation, [(.entityResolution, .resolvedEntities), (.crossSourceAlignment, .alignments)]),
   (.currentSearchProjection, [(.semanticReconciliation, .reconciledState)])]

/-- A lineage map: `node -> [direct dependents]`. -/
abbrev Lineage (α : Type) := List (α × List α)

namespace Lineage

variable {α : Type} [DecidableEq α]

/-- `lineage.get(node, [])`. -/
def get (l : Lineage α) (node : α) : List α := (l.lookup node).getD []

/-- `if stage not in dependents[node]: dependents[node].append(stage)`. -/
def add (l : Lineage α) (node stage : α) : Lineage α :=
  l.map fun e => if e.1 = node ∧ stage ∉ e.2 then (e.1, e.2 ++ [stage]) else e

end Lineage

/-- `build_dependents`. -/
def buildDependents : Lineage Stage :=
  stageDependencies.foldl (fun l e => e.2.foldl (fun l dep => l.add dep.1 e.1) l) (stageOrder.map fun s => (s, []))

/-- `STAGE_DEPENDENTS`. -/
def stageDependents : Lineage Stage := buildDependents

/-! ## The dependency relation -/

/-- The stages a stage directly depends on. -/
def Stage.dependencies (s : Stage) : List Stage := ((stageDependencies.lookup s).getD []).map (·.1)

/-- `u` is upstream of `s`: the transitive `STAGE_DEPENDENCIES` relation. -/
def Upstream : Stage → Stage → Prop := Relation.TransGen fun u s => u ∈ s.dependencies

theorem index_injective {s t : Stage} (h : s.index = t.index) : s = t :=
  (List.idxOf_inj (mem_stageOrder s)).1 h

/-- Dependencies come earlier in `STAGE_ORDER`. -/
theorem index_of_dependency {u s : Stage} (h : u ∈ s.dependencies) : u.index < s.index := by
  revert u s
  decide

/-- Every stage but the first depends on the one before it. -/
theorem previous_dependency {s : Stage} (h : s ≠ .ingest) : ∃ u ∈ s.dependencies, u.index + 1 = s.index := by
  revert s
  decide

theorem upstream_iff {u s : Stage} : Upstream u s ↔ u.index < s.index := by
  constructor
  · intro h
    induction h with
    | single h => exact index_of_dependency h
    | tail _ h ih => exact ih.trans (index_of_dependency h)
  · -- down the chain of predecessors, from `s` to `u`
    intro h
    generalize hn : s.index = n at h
    induction n generalizing s with
    | zero => omega
    | succ n ih =>
      have hs : s ≠ .ingest := by rintro rfl; cases hn
      obtain ⟨p, hp, hpi⟩ := previous_dependency hs
      by_cases hu : u.index = p.index
      · exact .single (index_injective hu ▸ hp)
      · exact .tail (ih (s := p) (by omega) (by omega)) hp

/-- The map the planner follows has exactly the dependency edges. -/
theorem mem_stageDependents {u s : Stage} : s ∈ stageDependents.get u ↔ u ∈ s.dependencies := by
  revert u s
  decide

/-- The dependents of a stage, of the ones they depend on, and so on. -/
theorem upstream_dependents {u s : Stage} : Upstream u s ↔ Relation.TransGen (fun a b => b ∈ stageDependents.get a) u s := by
  simp only [Upstream, mem_stageDependents]

/-- No stage twice, and of two related stages the upstream one first. -/
structure DependencyOrdered (stages : List Stage) : Prop where
  nodup : stages.Nodup
  upstream_first : stages.Pairwise fun s t => ¬ Upstream t s

theorem dependencyOrdered_iff {stages : List Stage} :
    DependencyOrdered stages ↔ stages.Pairwise fun s t => s.index < t.index := by
  constructor
  · rintro ⟨hn, hu⟩
    refine hn.imp₂ (fun s t hne hst => ?_) hu
    have := mt upstream_iff.2 hst
    exact Nat.lt_of_le_of_ne (by omega) fun he => hne (index_injective he)
  · intro h
    refine ⟨h.imp fun hlt he => by rw [he] at hlt; omega, h.imp fun hlt hu => ?_⟩
    have := upstream_iff.1 hu
    omega

theorem dependencyOrdered_stageOrder : DependencyOrdered stageOrder := dependencyOrdered_iff.2 (by decide)

/-- What is left of an ordered list is ordered. -/
theorem DependencyOrdered.filter {stages : List Stage} (h : DependencyOrdered stages) (p : Stage → Bool) :
    DependencyOrdered (stages.filter p) :=
  ⟨h.nodup.filter p, h.upstream_first.filter p⟩

end Umd.Jobs
