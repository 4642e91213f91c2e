import Umd.Jobs.Service
/-!
# The order of the scheduled stages

The list an operation passes to `run_graph` is dependency-ordered, whatever the
store holds, but for one operation: a retry of one stage lists a Python set, so
it is ordered for every iteration order only where at most one stage is listed.
-/

namespace Umd.Jobs

open Umd.Lib

/-- The stages from `stage` on that are not complete. -/
def openFrom (states : List StageState) (stage : Stage) : List Stage :=
  stageOrder.filter fun s => stage.index ≤ s.index ∧ isOpen states s

/-- Where an operation lists more than one stage out of a set. -/
def ListsOne (states : List StageState) (stage : Stage) : Prop :=
  (openFrom states stage).length ≤ 1 ∧ (openFrom states stage = [] → stage = .currentSearchProjection)

/-- What makes the order of the listed stages certain: a retry of one stage finds at most one stage from there on
that is not complete, and if it finds none there is no stage after it. -/
def Orderly {σ : Type} (svc : JobService σ) (s : σ) : Operation → Prop
  | .retry jobId _ (some stage) => ∀ rec, svc.store.get s jobId = some rec → ListsOne (svc.store.stageStates s jobId) stage
  | _ => True

/-! ## The closure of a stage -/

theorem mem_closure_iff {stage s : Stage} : s ∈ closure stage ↔ stage.index ≤ s.index := by
  rw [closure, List.mem_cons, mem_plan_iff, ← upstream_dependents, upstream_iff]
  constructor
  · rintro (rfl | h)
    · exact Nat.le_refl _
    · exact h.le
  · intro h
    rcases Nat.lt_or_eq_of_le h with h | h
    · exact .inr h
    · exact .inl (index_injective h.symm)

theorem mem_openFrom_iff {states : List StageState} {stage s : Stage} :
    s ∈ openFrom states stage ↔ stage.index ≤ s.index ∧ isOpen states s = true := by
  simp [openFrom, mem_stageOrder]

/-- The stages `retry` lists for a stage: those of the open list, or of the closure where that is empty. -/
theorem mem_retryTargets_iff {order : SetOrder Stage} {states : List StageState} {stage s : Stage} :
    s ∈ retryTargets order states stage ↔
      s ∈ openFrom states stage ∨ openFrom states stage = [] ∧ stage.index ≤ s.index := by
  have hset : ∀ t, t ∈ order.list (closure stage).toFinset ↔ stage.index ≤ t.index := fun t => by
    rw [order.mem_list, List.mem_toFinset, mem_closure_iff]
  have hopen : ∀ t, t ∈ (order.list (closure stage).toFinset).filter (isOpen states) ↔ t ∈ openFrom states stage := fun t => by
    rw [List.mem_filter, hset, mem_openFrom_iff]
  have hempty : (order.list (closure stage).toFinset).filter (isOpen states) = [] ↔ openFrom states stage = [] := by
    simp only [List.eq_nil_iff_forall_not_mem, hopen]
  simp only [retryTargets, List.isEmpty_iff, hempty]
  split
  · rename_i h
    simp [hset, h]
  · rename_i h
    simp only [hopen, h, false_and, or_false]

theorem retryTargets_nodup (order : SetOrder Stage) (states : List StageState) (stage : Stage) :
    (retryTargets order states stage).Nodup := by
  rw [retryTargets]
  split
  · exact order.nodup _
  · exact (order.nodup _).filter _

/-! ## The two directions for a retry -/

/-- A set iterated from its last stage back to the first. -/
def backwards : SetOrder Stage where
  list := fun s => (stageOrder.filter (· ∈ s)).reverse
  nodup := fun s => List.nodup_reverse.2 (stageOrder_nodup.filter _)
  toFinset_list := fun s => by ext a; simp [mem_stageOrder]

/-- Where at most one stage is listed the order of the set does not matter. -/
theorem retryTargets_ordered {states : List StageState} {stage : Stage} (h : ListsOne states stage)
    (order : SetOrder Stage) : DependencyOrdered (retryTargets order states stage) := by
  have hone : ∀ s ∈ retryTargets order states stage, ∀ t ∈ retryTargets order states stage, s = t := by
    intro s hs t ht
    rw [mem_retryTargets_iff] at hs ht
    by_cases hnil : openFrom states stage = []
    · have hlast := h.2 hnil
      simp only [hnil, List.not_mem_nil, true_and, false_or] at hs ht
      subst hlast
      revert s t
      decide
    · simp only [hnil, false_and, or_false] at hs ht
      obtain ⟨a, ha⟩ := List.length_eq_one_iff.1 (Nat.le_antisymm h.1 (List.length_pos_iff.2 hnil))
      rw [ha, List.mem_singleton] at hs ht
      exact hs.trans ht.symm
  refine ⟨retryTargets_nodup order states stage, ?_⟩
  refine List.pairwise_of_forall_mem_list fun s hs t ht hu => ?_
  rw [hone s hs t ht, upstream_iff] at hu
  exact Nat.lt_irrefl _ hu

/-- Iterated backwards, a set of two stages or more is out of order. -/
theorem retryTargets_backwards (states : List StageState) (stage : Stage) :
    (retryTargets backwards states stage).Pairwise fun s t => t.index < s.index := by
  have hset : (backwards.list (closure stage).toFinset).Pairwise fun s t => t.index < s.index :=
    List.pairwise_reverse.2 ((dependencyOrdered_iff.1 dependencyOrdered_stageOrder).filter _)
  rw [retryTargets]
  split
  · exact hset
  · exact hset.filter _

theorem listsOne_of_backwards {states : List StageState} {stage : Stage}
    (h : DependencyOrdered (retryTargets backwards states stage)) : ListsOne states stage := by
  -- both orders at once: no two stages are listed
  have hlen : (retryTargets backwards states stage).length ≤ 1 := by
    have hup := dependencyOrdered_iff.1 h
    have hdown := retryTargets_backwards states stage
    cases hl : retryTargets backwards states stage with
    | nil => simp
    | cons s rest =>
      rw [hl, List.pairwise_cons] at hup hdown
      cases rest with
      | nil => simp
      | cons t rest => exact absurd (hup.1 t (by simp)) (Nat.lt_asymm (hdown.1 t (by simp)))
  have hlist : ∀ l : List Stage, l.Nodup → (∀ s ∈ l, s ∈ retryTargets backwards states stage) → l.length ≤ 1 :=
    fun l hn hsub => ((List.subperm_of_subset hn hsub).length_le).trans hlen
  constructor
  · exact hlist _ (stageOrder_nodup.filter _) fun s hs => mem_retryTargets_iff.2 (.inl hs)
  · intro hnil
    have hfrom := hlist (stageOrder.filter (stage.index ≤ ·.index)) (stageOrder_nodup.filter _) fun s hs =>
      mem_retryTargets_iff.2 (.inr ⟨hnil, by simpa using (List.mem_filter.1 hs).2⟩)
    revert hfrom
    clear h hnil hlen hlist
    revert stage
    decide

/-! ## Every operation -/

theorem schedule_request {σ : Type} {svc : JobService σ} {s : σ} {r req : RunRequest}
    (h : (svc.schedule s r).2 = .ok (some req)) : req = r := by
  unfold JobService.schedule at h
  split at h
  · cases h
  · cases h; rfl

theorem scheduleSome_request {σ : Type} {svc : JobService σ} {s : σ} {r req : RunRequest}
    (h : (svc.scheduleSome s r).2 = .ok (some req)) : req = r := by
  unfold JobService.scheduleSome at h
  split at h
  · cases h
  · exact schedule_request h

/-- **Every operation passes `run_graph` a list without duplicates in dependency order**, whatever the order of
Python sets, exactly where it is orderly. -/
theorem scheduled_ordered_iff {σ : Type} (svc : JobService σ) (s : σ) (op : Operation) :
    (∀ (order : SetOrder Stage) (req : RunRequest), (svc.call order s op).2 = .ok (some req) →
      DependencyOrdered req.stages) ↔ Orderly svc s op := by
  cases op with
  | submit jobId sourceId dagUniverse request =>
    refine iff_of_true (fun order req h => ?_) trivial
    simp only [JobService.call] at h
    split at h
    · cases h
    · unfold JobService.submitCall at h
      split at h
      · rw [schedule_request h]; exact dependencyOrdered_stageOrder
      · cases h
  | retry jobId dagUniverse stage =>
    cases stage with
    | none =>
      refine iff_of_true (fun order req h => ?_) trivial
      simp only [JobService.call] at h
      split at h
      · cases h
      · simp only [JobService.retryCall, Except.ok.injEq] at h
        split at h
        · cases h
        · cases h; exact dependencyOrdered_stageOrder.filter _
    | some stage =>
      constructor
      · intro h rec hrec
        apply listsOne_of_backwards
        by_cases hnil : retryTargets backwards (svc.store.stageStates s jobId) stage = []
        · rw [hnil]; exact ⟨List.nodup_nil, .nil⟩
        · refine h backwards ⟨jobId, rec.sourceId, dagUniverse, retryTargets backwards (svc.store.stageStates s jobId) stage,
            none⟩ ?_
          simp only [JobService.call, hrec, JobService.retryCall]
          rw [if_neg (by rwa [List.isEmpty_iff])]
      · intro h order req hcall
        simp only [JobService.call] at hcall
        split at hcall
        · cases hcall
        · rename_i rec hrec
          simp only [JobService.retryCall, Except.ok.injEq] at hcall
          split at hcall
          · cases hcall
          · cases hcall; exact retryTargets_ordered (h rec hrec) order
  | rerunStage sourceId stage scope causation dagUniverse jobId =>
    refine iff_of_true (fun order req h => ?_) trivial
    rw [scheduleSome_request h]
    exact plan_ordered causation scope stage
  | rerunSource sourceId scope causation dagUniverse jobId =>
    refine iff_of_true (fun order req h => ?_) trivial
    rw [schedule_request h]
    exact dependencyOrdered_stageOrder.filter (· ≠ .ingest)
  | invalidate subjectRef predicate cause scope stage sourceId dagUniverse jobId refs =>
    refine iff_of_true (fun order req h => ?_) trivial
    simp only [JobService.call, JobService.invalidateCall] at h
    split at h
    · rw [scheduleSome_request h]; exact plan_ordered _ scope stage
    · split at h
      · cases h
      · rw [scheduleSome_request h]; exact plan_ordered _ scope stage

/-- A job that has run nothing, retried from the stage before the last: the set may give the last stage first. -/
theorem retry_out_of_order :
    let job : JobRecord := { id := "job", sourceId := none, dagUniverse := "v1-dag:base", status := .failed }
    let svc : JobService InMemoryJobs := { store := InMemoryJobs.store, runner := fun _ s => (s, .ok []) }
    let s : InMemoryJobs := { jobs := fun id => if id = "job" then some job else none }
    ∃ req, (svc.call backwards s (.retry "job" "v1-dag:base" (some .semanticReconciliation))).2 = .ok (some req) ∧
      req.stages = [.currentSearchProjection, .semanticReconciliation] ∧ ¬ DependencyOrdered req.stages := by
  refine ⟨⟨"job", none, "v1-dag:base", [.currentSearchProjection, .semanticReconciliation], none⟩, rfl, rfl, ?_⟩
  rw [dependencyOrdered_iff]
  decide

end Umd.Jobs
