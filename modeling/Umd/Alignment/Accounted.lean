import Umd.Alignment.Align
import Umd.Lib.Python
/-!
# Units accounted for

A plan names every unit once: in its pairs, or as an omission or an addition.
A DTW path covers all units of two lists that are not empty, and there is none
when only one is; a scene pairs the units that share it, which their refs tell
apart unless one ref stands for units of both kinds (`accounted_iff`).
-/

namespace Umd.Alignment

open Umd.Lib PyFloat

section
variable {F : Type} [PyFloat F] {left right : List (AlignableUnit F)}

/-- Each unit is in a pair, or listed as unmatched, and not both; pairs are of units there are. -/
structure Accounted (left right : List (AlignableUnit F)) (plan : AlignmentPlan F) : Prop where
  lefts : ∀ u ∈ left, u.ref ∈ plan.pairs.map (·.leftRef) ↔ u.ref ∉ plan.additions
  rights : ∀ u ∈ right, u.ref ∈ plan.pairs.map (·.rightRef) ↔ u.ref ∉ plan.omissions
  existing : ∀ p ∈ plan.pairs, (∃ u ∈ left, u.ref = p.leftRef) ∧ ∃ u ∈ right, u.ref = p.rightRef

/-- Units of one ref are all in the path or none of them is. -/
def Uniform (units : List (AlignableUnit F)) (used : List Nat) : Prop :=
  ∀ i u, units[i]? = some u → ∀ i' u', units[i']? = some u' → u.ref = u'.ref → i ∈ used → i' ∈ used

omit [PyFloat F] in
theorem mem_unused {units : List (AlignableUnit F)} {used : List Nat} {ref : String} :
    ref ∈ unused units used ↔ ∃ i u, units[i]? = some u ∧ u.ref = ref ∧ i ∉ used := by
  unfold unused
  rw [List.mem_map]
  constructor
  · rintro ⟨⟨u, i⟩, hu, rfl⟩
    obtain ⟨hu, hi⟩ := List.mem_filter.1 hu
    exact ⟨i, u, List.mem_zipIdx_iff_getElem?.1 hu, rfl, by simpa using hi⟩
  · rintro ⟨i, u, hu, rfl, hi⟩
    exact ⟨(u, i), List.mem_filter.2 ⟨List.mem_zipIdx_iff_getElem?.2 hu, by simpa using hi⟩, rfl⟩

omit [PyFloat F] in
/-- One side of a plan: what is paired and what is not go by the indices of the path. -/
theorem side_iff {units : List (AlignableUnit F)} {used : List Nat} {refs : List String}
    (hrefs : ∀ ref, ref ∈ refs ↔ ∃ i u, units[i]? = some u ∧ u.ref = ref ∧ i ∈ used) :
    (∀ u ∈ units, u.ref ∈ refs ↔ u.ref ∉ unused units used) ↔ Uniform units used := by
  constructor
  · intro h i u hu i' u' hu' href hi
    by_contra hi'
    have hpaired := (hrefs u.ref).2 ⟨i, u, hu, rfl, hi⟩
    exact (h u (List.mem_of_getElem? hu)).1 hpaired (mem_unused.2 ⟨i', u', hu', href.symm, hi'⟩)
  · intro h u hu
    rw [hrefs, mem_unused]
    constructor
    · rintro ⟨i, v, hv, hvu, hi⟩ ⟨i', v', hv', hvu', hi'⟩
      exact hi' (h i v hv i' v' hv' (hvu.trans hvu'.symm) hi)
    · intro hnot
      obtain ⟨i, hi⟩ := List.mem_iff_getElem?.1 hu
      by_contra hnone
      exact hnot ⟨i, u, hi, rfl, fun hused => hnone ⟨i, u, hi, rfl, hused⟩⟩

/-- A path within the lists gives a plan, which accounts for the units if and only if the refs tell the paired ones apart. -/
theorem buildPlan_accounted {path : List (Nat × Nat)} (hpath : ∀ p ∈ path, p.1 < left.length ∧ p.2 < right.length)
    (method : AlignMethod) (alignmentType : AlignmentType) (assumption : ParallelityAssumption) (confidence threshold : F) :
    ∃ plan, buildPlan left right method alignmentType assumption confidence threshold path = .ok plan ∧
      (Accounted left right plan ↔ Uniform left (path.map (·.1)) ∧ Uniform right (path.map (·.2))) := by
  let pair (q : Nat × Nat) : Except AlignError (AlignedPair F) := do
    return pairOf method alignmentType assumption confidence threshold (← unitAt left q.1) (← unitAt right q.2)
  have hat : ∀ {units : List (AlignableUnit F)} {i : Nat}, i < units.length → ∃ u, units[i]? = some u ∧ unitAt units i = .ok u := by
    intro units i hi
    have hu : units[i]? = some units[i] := List.getElem?_eq_getElem hi
    exact ⟨_, hu, by unfold unitAt; rw [hu]⟩
  -- what a pair of indices gives
  have hpair : ∀ q ∈ path, ∃ l r, left[q.1]? = some l ∧ right[q.2]? = some r ∧
      pair q = .ok (pairOf method alignmentType assumption confidence threshold l r) := by
    intro q hq
    obtain ⟨l, hl, hl'⟩ := hat (hpath q hq).1
    obtain ⟨r, hr, hr'⟩ := hat (hpath q hq).2
    exact ⟨l, r, hl, hr, by simp only [pair, hl', hr']; rfl⟩
  have hall : ∀ qs : List (Nat × Nat), qs ⊆ path → ∃ pairs, qs.mapM pair = .ok pairs := by
    intro qs
    induction qs with
    | nil => exact fun _ => ⟨[], rfl⟩
    | cons q qs ih =>
      intro hqs
      obtain ⟨l, r, -, -, hq⟩ := hpair q (hqs (List.mem_cons_self ..))
      obtain ⟨pairs, hpairs⟩ := ih fun x hx => hqs (List.mem_cons_of_mem _ hx)
      exact ⟨_ :: pairs, by rw [List.mapM_cons, hq, hpairs]; rfl⟩
  obtain ⟨pairs, hpairs⟩ := hall path fun _ hq => hq
  have hfrom : ∀ p ∈ pairs, ∃ q ∈ path, ∃ l r, left[q.1]? = some l ∧ right[q.2]? = some r ∧ p.leftRef = l.ref ∧ p.rightRef = r.ref := by
    intro p hp
    obtain ⟨q, hq, hqp⟩ := mapM_mem hpairs p hp
    obtain ⟨l, r, hl, hr, hok⟩ := hpair q hq
    cases hok.symm.trans hqp
    exact ⟨q, hq, l, r, hl, hr, rfl, rfl⟩
  have hto : ∀ q ∈ path, ∃ p ∈ pairs, ∃ l r, left[q.1]? = some l ∧ right[q.2]? = some r ∧ p.leftRef = l.ref ∧ p.rightRef = r.ref := by
    intro q hq
    obtain ⟨p, hp, hqp⟩ := mapM_each hpairs q hq
    obtain ⟨l, r, hl, hr, hok⟩ := hpair q hq
    cases hok.symm.trans hqp
    exact ⟨_, hp, l, r, hl, hr, rfl, rfl⟩
  have hleft : ∀ ref, ref ∈ pairs.map (·.leftRef) ↔ ∃ i u, left[i]? = some u ∧ u.ref = ref ∧ i ∈ path.map (·.1) := by
    intro ref
    rw [List.mem_map]
    constructor
    · rintro ⟨p, hp, rfl⟩
      obtain ⟨q, hq, l, r, hl, hr, hpl, hpr⟩ := hfrom p hp
      exact ⟨q.1, l, hl, hpl.symm, List.mem_map_of_mem hq⟩
    · rintro ⟨i, u, hu, rfl, hi⟩
      obtain ⟨q, hq, rfl⟩ := List.mem_map.1 hi
      obtain ⟨p, hp, l, r, hl, hr, hpl, hpr⟩ := hto q hq
      cases hl.symm.trans hu
      exact ⟨p, hp, hpl⟩
  have hright : ∀ ref, ref ∈ pairs.map (·.rightRef) ↔ ∃ i u, right[i]? = some u ∧ u.ref = ref ∧ i ∈ path.map (·.2) := by
    intro ref
    rw [List.mem_map]
    constructor
    · rintro ⟨p, hp, rfl⟩
      obtain ⟨q, hq, l, r, hl, hr, hpl, hpr⟩ := hfrom p hp
      exact ⟨q.2, r, hr, hpr.symm, List.mem_map_of_mem hq⟩
    · rintro ⟨i, u, hu, rfl, hi⟩
      obtain ⟨q, hq, rfl⟩ := List.mem_map.1 hi
      obtain ⟨p, hp, l, r, hl, hr, hpl, hpr⟩ := hto q hq
      cases hr.symm.trans hu
      exact ⟨p, hp, hpr⟩
  have hplan : buildPlan left right method alignmentType assumption confidence threshold path = .ok {
      pairs := pairs
      omissions := unused right (path.map (·.2))
      additions := unused left (path.map (·.1))
      reordering := detectReordering pairs
      contradictions := (pairs.filter fun p => p.metadata.any (·.1 = "contradiction")).map fun p => (p.leftRef, p.rightRef)
      parallelityAssumption := assumption } := by
    change path.mapM pair >>= _ = _
    rw [hpairs]
    rfl
  refine ⟨_, hplan, ?_⟩
  constructor
  · intro h
    exact ⟨(side_iff hleft).1 h.lefts, (side_iff hright).1 h.rights⟩
  · rintro ⟨hl, hr⟩
    refine ⟨(side_iff hleft).2 hl, (side_iff hright).2 hr, fun p hp => ?_⟩
    obtain ⟨q, hq, l, r, hl', hr', hpl, hpr⟩ := hfrom p hp
    exact ⟨⟨l, List.mem_of_getElem? hl', hpl.symm⟩, r, List.mem_of_getElem? hr', hpr.symm⟩

/-! ## The paths -/

/-- Two lists that are not empty have a path that covers them, and so have two empty ones; otherwise there is no path. -/
theorem dtwPath_iff (distance : AlignableUnit F → AlignableUnit F → F) :
    (left = [] ↔ right = []) ∧ (∃ path, dtwPath left right distance = .ok path ∧ Covers left.length right.length path) ∨
      ¬ (left = [] ↔ right = []) ∧ dtwPath left right distance = .error .indexError := by
  have htable : IsTable (left.map fun l => right.map fun r => distance l r) left.length right.length := by
    refine ⟨List.length_map .., fun row hrow => ?_⟩
    obtain ⟨l, -, rfl⟩ := List.mem_map.1 hrow
    exact List.length_map ..
  unfold dtwPath
  generalize (left.map fun l => right.map fun r => distance l r) = d at htable ⊢
  dsimp only
  cases left with
  | nil =>
    cases right with
    | nil => exact .inl ⟨Iff.rfl, [], by simp only [List.length_nil, cost, walk]; rfl, by simp, by simp, nofun⟩
    | cons r right =>
      refine .inr ⟨by simp, ?_⟩
      rw [List.length_cons, (border_error htable (.inl rfl) right.length).2]
      simp only [List.length_nil, cost]
      rfl
  | cons l left =>
    cases right with
    | nil =>
      refine .inr ⟨by simp, ?_⟩
      rw [List.length_cons, (border_error htable (.inr rfl) left.length).1]
      rfl
    | cons r right =>
      refine .inl ⟨by simp, ?_⟩
      have hn : 0 < (l :: left).length := Nat.succ_pos _
      have hm : 0 < (r :: right).length := Nat.succ_pos _
      obtain ⟨x, hx⟩ := cost_ok htable hn hm _ 0 le_rfl (Nat.zero_le _)
      obtain ⟨y, hy⟩ := cost_ok htable hn hm 0 _ (Nat.zero_le _) le_rfl
      obtain ⟨z, hz⟩ := cost_ok htable hn hm _ _ le_rfl le_rfl
      obtain ⟨path, hpath, -, hl, hr, hin⟩ := walk_covers htable hn hm _ _ [] le_rfl le_rfl
      refine ⟨path, ?_, hl, hr, fun p hp => (hin p hp).resolve_left List.not_mem_nil⟩
      rw [hx, hy, hz]
      exact hpath

omit [PyFloat F] in
/-- A path that covers both lists accounts for every unit. -/
theorem Covers.uniform {path : List (Nat × Nat)} (h : Covers left.length right.length path) :
    Uniform left (path.map (·.1)) ∧ Uniform right (path.map (·.2)) := by
  constructor
  · intro _ _ _ i u hu _ _
    obtain ⟨j, hj⟩ := h.left i (List.getElem?_eq_some_iff.1 hu).1
    exact List.mem_map_of_mem (f := Prod.fst) hj
  · intro _ _ _ j u hu _ _
    obtain ⟨i, hi⟩ := h.right j (List.getElem?_eq_some_iff.1 hu).1
    exact List.mem_map_of_mem (f := Prod.snd) hi

omit [PyFloat F] in
theorem mem_scenePath {i j : Nat} : (i, j) ∈ scenePath left right ↔
    ∃ l r, left[i]? = some l ∧ right[j]? = some r ∧ l.scene = r.scene := by
  unfold scenePath
  simp only [List.mem_flatMap, List.mem_map, List.mem_filter, Prod.exists, List.mem_zipIdx_iff_getElem?, Prod.mk.injEq,
    decide_eq_true_eq]
  constructor
  · rintro ⟨l, _, hl, r, _, ⟨hr, hscene⟩, rfl, rfl⟩
    exact ⟨l, r, hl, hr, hscene⟩
  · rintro ⟨l, r, hl, hr, hscene⟩
    exact ⟨l, i, hl, r, j, ⟨hr, hscene⟩, rfl, rfl⟩

/-- Units of one ref that share a scene with the other side, all or none. -/
def SameScenes (units others : List (AlignableUnit F)) : Prop :=
  ∀ u ∈ units, ∀ u' ∈ units, u.ref = u'.ref → (∃ o ∈ others, u.scene = o.scene) → ∃ o ∈ others, u'.scene = o.scene

omit [PyFloat F] in
theorem uniform_iff {units others : List (AlignableUnit F)} {used : List Nat}
    (hused : ∀ i u, units[i]? = some u → (i ∈ used ↔ ∃ o ∈ others, u.scene = o.scene)) :
    Uniform units used ↔ SameScenes units others := by
  constructor
  · intro h u hu u' hu' href hscene
    obtain ⟨i, hi⟩ := List.mem_iff_getElem?.1 hu
    obtain ⟨i', hi'⟩ := List.mem_iff_getElem?.1 hu'
    exact (hused i' u' hi').1 (h i u hi i' u' hi' href ((hused i u hi).2 hscene))
  · intro h i u hu i' u' hu' href hi
    exact (hused i' u' hu').2 (h u (List.mem_of_getElem? hu) u' (List.mem_of_getElem? hu') href ((hused i u hu).1 hi))

omit [PyFloat F] in
theorem scenePath_uniform : (Uniform left ((scenePath left right).map (·.1)) ∧ Uniform right ((scenePath left right).map (·.2))) ↔
    SameScenes left right ∧ SameScenes right left := by
  refine and_congr (uniform_iff fun i u hu => ?_) (uniform_iff fun j u hu => ?_)
  · rw [List.mem_map]
    constructor
    · rintro ⟨⟨i', j⟩, hp, rfl⟩
      obtain ⟨l, r, hl, hr, hscene⟩ := mem_scenePath.1 hp
      cases hl.symm.trans hu
      exact ⟨r, List.mem_of_getElem? hr, hscene⟩
    · rintro ⟨r, hr, hscene⟩
      obtain ⟨j, hj⟩ := List.mem_iff_getElem?.1 hr
      exact ⟨(i, j), mem_scenePath.2 ⟨u, r, hu, hj, hscene⟩, rfl⟩
  · rw [List.mem_map]
    constructor
    · rintro ⟨⟨i, j'⟩, hp, rfl⟩
      obtain ⟨l, r, hl, hr, hscene⟩ := mem_scenePath.1 hp
      cases hr.symm.trans hu
      exact ⟨l, List.mem_of_getElem? hl, hscene.symm⟩
    · rintro ⟨l, hl, hscene⟩
      obtain ⟨i, hi⟩ := List.mem_iff_getElem?.1 hl
      exact ⟨(i, j), mem_scenePath.2 ⟨l, u, hi, hu, hscene.symm⟩, rfl⟩

/-! ## The aligners -/

/-- What the lists have to be for a plan that accounts for them. -/
def Alignable (left right : List (AlignableUnit F)) (method : AlignMethod) (assumption : ParallelityAssumption) : Prop :=
  if assumption ≠ .parallelMonotone ∧ method = .sceneOrderDtw then SameScenes left right ∧ SameScenes right left
  else left = [] ↔ right = []

/-- A plan is built from a DTW path when both lists have units or neither has. -/
theorem dtw_accounted (distance : AlignableUnit F → AlignableUnit F → F) (method : AlignMethod) (alignmentType : AlignmentType)
    (assumption : ParallelityAssumption) (confidence threshold : F) :
    (∃ plan, (do buildPlan left right method alignmentType assumption confidence threshold (← dtwPath left right distance)) =
        .ok plan ∧ Accounted left right plan) ↔ (left = [] ↔ right = []) := by
  rcases @dtwPath_iff F _ left right distance with ⟨hsides, path, hpath, hcovers⟩ | ⟨hsides, herr⟩
  · obtain ⟨plan, hplan, hiff⟩ := buildPlan_accounted hcovers.within method alignmentType assumption confidence threshold
    rw [hpath]
    exact ⟨fun _ => hsides, fun _ => ⟨plan, hplan, hiff.2 hcovers.uniform⟩⟩
  · rw [herr]
    refine ⟨?_, fun h => absurd h hsides⟩
    rintro ⟨plan, hplan, -⟩
    cases hplan

/-- **`align_many_to_many` returns a plan that accounts for every unit if and only if the lists are alignable**: for a DTW
method both are empty or neither is, for scene order no ref stands for a unit that shares a scene and one that does not. -/
theorem accounted_iff (left right : List (AlignableUnit F)) (assumption : ParallelityAssumption) (confidence : F)
    (method : AlignMethod) :
    (∃ plan, alignManyToMany left right assumption confidence method = .ok plan ∧ Accounted left right plan) ↔
      Alignable left right method assumption := by
  unfold alignManyToMany Alignable
  by_cases hmono : assumption = .parallelMonotone
  · have hdtw : ¬ (assumption ≠ .parallelMonotone ∧ method = .sceneOrderDtw) := fun h => h.1 hmono
    rw [if_pos hmono, if_neg hdtw]
    exact dtw_accounted ..
  · rw [if_neg hmono]
    by_cases hscene : method = .sceneOrderDtw
    · have hpath : ∀ p ∈ scenePath left right, p.1 < left.length ∧ p.2 < right.length := by
        rintro ⟨i, j⟩ hp
        obtain ⟨l, r, hl, hr, -⟩ := mem_scenePath.1 hp
        exact ⟨(List.getElem?_eq_some_iff.1 hl).1, (List.getElem?_eq_some_iff.1 hr).1⟩
      obtain ⟨plan, hplan, hiff⟩ := buildPlan_accounted hpath .sceneOrderDtw .adaptation assumption confidence (lit 0)
      rw [if_pos hscene, if_pos ⟨hmono, hscene⟩, ← scenePath_uniform, ← hiff]
      constructor
      · rintro ⟨plan', hplan', haccounted⟩
        cases hplan.symm.trans hplan'
        exact haccounted
      · exact fun haccounted => ⟨plan, hplan, haccounted⟩
    · have hdtw : ¬ (assumption ≠ .parallelMonotone ∧ method = .sceneOrderDtw) := fun h => hscene h.2
      rw [if_neg hscene, if_neg hdtw]
      split <;> exact dtw_accounted ..

end

/-- Exact arithmetic in the place of floats. -/
instance exactFloat : PyFloat ℚ where
  lit q := q
  add := (· + ·)
  sub := (· - ·)
  mul := (· * ·)
  div := (· / ·)
  abs q := max q (-q)
  sqrt := Rat.sqrt
  round q digits := roundTo digits q
  lt a b := decide (a < b)
  eq a b := decide (a = b)

/-- One unit on the left and none on the right. -/
theorem lone_unit_raises : ¬ ∀ (left right : List (AlignableUnit ℚ)) assumption confidence method,
    ∃ plan, alignManyToMany left right assumption confidence method = .ok plan ∧ Accounted left right plan := by
  intro hall
  obtain ⟨plan, hplan, -⟩ := hall [⟨"work:1:seg:0", 0, 1, "", []⟩] [] .adaptation (3 / 5) .timecodeDtw
  have hraises : dtwPath [⟨"work:1:seg:0", 0, 1, "", []⟩] ([] : List (AlignableUnit ℚ)) timecodeDistance = .error .indexError := by
    have htable : IsTable ([[]] : List (List ℚ)) 1 0 := ⟨rfl, by simp⟩
    change (do let _ ← cost [[]] 1 0; _) = _
    rw [(border_error htable (.inr rfl) 0).1]
    rfl
  have herr : alignManyToMany [⟨"work:1:seg:0", 0, 1, "", []⟩] ([] : List (AlignableUnit ℚ)) .adaptation (3 / 5) .timecodeDtw =
      .error .indexError := by
    change (do buildPlan _ _ _ _ _ _ _ (← dtwPath _ _ _)) = _
    rw [hraises]
    rfl
  rw [herr] at hplan
  cases hplan

end Umd.Alignment
