import Mathlib
/-!
# Generations of a projection

`ProjectionPublishManager`: a projection is built into the schema of a new
generation and becomes what reads see when that generation is published. A
build, a mark and a publish as the statements on `projection_generation` that
they are.
-/

namespace Umd.Projections

inductive GenerationState where
  | building
  | published
  | retired
  | reaped
deriving DecidableEq

/-- A row of `projection_generation`. -/
structure ProjectionGeneration where
  projectionName : String
  generation : Nat
  schemaName : String
  state : GenerationState
  publishedAt : Option Nat := none
  graceDeadline : Option Nat := none
  checkpointSeq : Nat := 0
deriving DecidableEq

/-- The rows of `projection_generation`. -/
abbrev GenerationTable := List ProjectionGeneration

/-- `schema_for`. -/
def schemaFor (name : String) (generation : Nat) : String := "proj_" ++ name ++ "_" ++ toString generation

namespace ProjectionGeneration

/-- The row of a projection's generation. -/
def isOf (row : ProjectionGeneration) (name : String) (generation : Nat) : Bool :=
  row.projectionName = name && row.generation = generation

/-- A projection's row that is published. -/
def isPublished (row : ProjectionGeneration) (name : String) : Bool := row.projectionName = name && row.state = .published

end ProjectionGeneration

namespace GenerationTable

/-- `UPDATE projection_generation SET … WHERE`. -/
def update (t : GenerationTable) (p : ProjectionGeneration → Bool) (set : ProjectionGeneration → ProjectionGeneration) :
    GenerationTable :=
  t.map fun row => if p row then set row else row

/-- `_next_generation`. -/
def nextGeneration (t : GenerationTable) (name : String) : Nat :=
  ((t.filter (·.projectionName = name)).map (·.generation)).foldr max 0 + 1

/-- `_upsert_row`: of a row that is there only the state and the schema are set. -/
def upsertRow (t : GenerationTable) (row : ProjectionGeneration) : GenerationTable :=
  if t.any (·.isOf row.projectionName row.generation) then
    t.update (·.isOf row.projectionName row.generation) fun r => { r with state := row.state, schemaName := row.schemaName }
  else t ++ [row]

/-- `begin_build`: the table, and the generation that is built. -/
def beginBuild (t : GenerationTable) (name : String) : GenerationTable × Nat :=
  let generation := t.nextGeneration name
  (t.upsertRow { projectionName := name, generation, schemaName := schemaFor name generation, state := .building }, generation)

/-- `mark_built`. -/
def markBuilt (t : GenerationTable) (name : String) (generation checkpointSeq : Nat) : GenerationTable :=
  t.update (·.isOf name generation) fun row => { row with checkpointSeq := checkpointSeq }

/-- `publish`, at the time `now` of a manager with this grace period. -/
def publish (gracePeriod : Nat) (t : GenerationTable) (name : String) (generation now : Nat) : GenerationTable :=
  let prior := (t.filter (·.isPublished name)).map (·.generation)
  let t := prior.foldl (fun t g => t.update (·.isOf name g) fun row =>
    { row with state := .retired, graceDeadline := some (now + gracePeriod) }) t
  t.update (·.isOf name generation) fun row =>
    { row with state := .published, publishedAt := some now, graceDeadline := none }

/-- `current_generation`. -/
def currentGeneration (t : GenerationTable) (name : String) : Option Nat :=
  ((t.filter (·.isPublished name)).map (·.generation)).max?

/-- `current_schema`. -/
def currentSchema (t : GenerationTable) (name : String) : Option String := (t.currentGeneration name).map (schemaFor name)

end GenerationTable

/-! ## What reads see -/

/-- Generations of one projection have different schemas. -/
theorem schemaFor_inj {name : String} {g g' : Nat} (h : schemaFor name g = schemaFor name g') : g = g' := by
  have hl := congrArg String.toList h
  simp only [schemaFor, String.toList_append] at hl
  have hr : toString g = toString g' := String.toList_inj.1 (List.append_cancel_left hl)
  exact Nat.repr_injective hr

namespace GenerationTable

theorem isPublished_congr {row row' : ProjectionGeneration} (hn : row'.projectionName = row.projectionName)
    (hs : row'.state = row.state) (name : String) : row'.isPublished name = row.isPublished name := by
  simp only [ProjectionGeneration.isPublished, hn, hs]

/-- An update that keeps what reads see of every row. -/
theorem currentGeneration_map {t : GenerationTable} {f : ProjectionGeneration → ProjectionGeneration} {name : String}
    (hg : ∀ row ∈ t, (f row).generation = row.generation) (hp : ∀ row ∈ t, (f row).isPublished name = row.isPublished name) :
    currentGeneration (t.map f) name = t.currentGeneration name := by
  unfold currentGeneration
  have hfilter : (t.map f).filter (·.isPublished name) = (t.filter (·.isPublished name)).map f := by
    rw [List.filter_map]
    exact congrArg (List.map f) (List.filter_congr fun row hr => hp row hr)
  rw [hfilter, List.map_map]
  refine congrArg List.max? (List.map_congr_left fun row hr => hg row (List.mem_filter.1 hr).1)

theorem markBuilt_current (t : GenerationTable) (name' : String) (g n : Nat) (name : String) :
    (t.markBuilt name' g n).currentGeneration name = t.currentGeneration name := by
  apply currentGeneration_map
  · intro row _
    dsimp only
    split <;> rfl
  · intro row _
    apply isPublished_congr
    · split <;> rfl
    · split <;> rfl

/-- The generation that is built next is there under no row. -/
theorem nextGeneration_fresh (t : GenerationTable) (name : String) : t.any (·.isOf name (t.nextGeneration name)) = false := by
  rw [List.any_eq_false]
  intro row hr hof
  simp only [ProjectionGeneration.isOf, Bool.and_eq_true, decide_eq_true_eq] at hof
  have hle : ∀ {gs : List Nat} {g : Nat}, g ∈ gs → g ≤ gs.foldr max 0 := by
    intro gs g hg
    induction gs with
    | nil => cases hg
    | cons a gs ih =>
      rw [List.foldr_cons]
      rcases List.mem_cons.1 hg with rfl | hg
      · omega
      · have := ih hg
        omega
  have hmem : row.generation ∈ (t.filter (·.projectionName = name)).map (·.generation) :=
    List.mem_map_of_mem (List.mem_filter.2 ⟨hr, by simpa using hof.1⟩)
  have := hle hmem
  have hnext : row.generation = _ + 1 := hof.2
  omega

theorem beginBuild_eq (t : GenerationTable) (name : String) : (t.beginBuild name).1 =
    t ++ [{ projectionName := name, generation := t.nextGeneration name, schemaName := schemaFor name (t.nextGeneration name)
            state := .building }] := by
  unfold beginBuild upsertRow
  dsimp only
  rw [if_neg (by rw [t.nextGeneration_fresh]; exact Bool.false_ne_true)]

theorem beginBuild_current (t : GenerationTable) (name' name : String) :
    (t.beginBuild name').1.currentGeneration name = t.currentGeneration name := by
  unfold currentGeneration
  rw [beginBuild_eq, List.filter_append, List.filter_cons_of_neg (by simp [ProjectionGeneration.isPublished]), List.filter_nil,
    List.append_nil]

/-- What `publish` makes of a row: the generation it publishes is published, and no other of the projection. -/
theorem publish_eq (gracePeriod : Nat) (t : GenerationTable) (name : String) (g now : Nat) :
    ∃ f : ProjectionGeneration → ProjectionGeneration, t.publish gracePeriod name g now = t.map f ∧
      ∀ row ∈ t, (f row).generation = row.generation ∧ (f row).projectionName = row.projectionName ∧
        (row.projectionName ≠ name → f row = row) ∧ (f row).isPublished name = row.isOf name g := by
  let retired (g : Nat) (row : ProjectionGeneration) : ProjectionGeneration :=
    if row.isOf name g then { row with state := .retired, graceDeadline := some (now + gracePeriod) } else row
  let published (row : ProjectionGeneration) : ProjectionGeneration :=
    if row.isOf name g then { row with state := .published, publishedAt := some now, graceDeadline := none } else row
  -- the loop over the prior ones is one pass over the rows
  have hloop : ∀ (gs : List Nat) (t : GenerationTable),
      gs.foldl (fun t g => t.map (retired g)) t = t.map fun row => gs.foldl (fun row g => retired g row) row := by
    intro gs
    induction gs with
    | nil => intro t; simp
    | cons g gs ih =>
      intro t
      rw [List.foldl_cons, ih, List.map_map]
      rfl
  have hrow : ∀ (gs : List Nat) (row : ProjectionGeneration),
      (gs.foldl (fun row g => retired g row) row).generation = row.generation ∧
      (gs.foldl (fun row g => retired g row) row).projectionName = row.projectionName ∧
      (row.projectionName ≠ name → gs.foldl (fun row g => retired g row) row = row) ∧
      ((gs.foldl (fun row g => retired g row) row).isPublished name = true →
        row.isPublished name = true ∧ row.generation ∉ gs) := by
    intro gs
    induction gs with
    | nil => exact fun row => ⟨rfl, rfl, fun _ => rfl, fun h => ⟨h, List.not_mem_nil⟩⟩
    | cons g gs ih =>
      intro row
      obtain ⟨h1, h2, h3, h4⟩ := ih (retired g row)
      have hkeep : (retired g row).generation = row.generation ∧ (retired g row).projectionName = row.projectionName := by
        unfold retired
        split <;> exact ⟨rfl, rfl⟩
      rw [List.foldl_cons]
      refine ⟨h1.trans hkeep.1, h2.trans hkeep.2, fun hne => ?_, fun hp => ?_⟩
      · have hsame : retired g row = row := if_neg (by simp [ProjectionGeneration.isOf, hne])
        rw [h3 (hkeep.2 ▸ hne), hsame]
      · obtain ⟨hp', hg⟩ := h4 hp
        by_cases hof : row.isOf name g = true
        · simp [retired, hof, ProjectionGeneration.isPublished] at hp'
        · have hsame : retired g row = row := if_neg hof
          rw [hsame] at hp' hg
          refine ⟨hp', fun hm => ?_⟩
          rcases List.mem_cons.1 hm with he | hm
          · simp only [ProjectionGeneration.isPublished, Bool.and_eq_true, decide_eq_true_eq] at hp'
            exact hof (by simp [ProjectionGeneration.isOf, hp'.1, he])
          · exact hg hm
  refine ⟨fun row => published (((t.filter (·.isPublished name)).map (·.generation)).foldl (fun row g => retired g row) row),
    ?_, fun row hr => ?_⟩
  · change (List.foldl (fun t g => t.map (retired g)) t _).map published = _
    rw [hloop, List.map_map]
    rfl
  · obtain ⟨h1, h2, h3, h4⟩ := hrow ((t.filter (·.isPublished name)).map (·.generation)) row
    dsimp only
    generalize ((t.filter (·.isPublished name)).map (·.generation)).foldl (fun row g => retired g row) row = row' at h1 h2 h3 h4 ⊢
    have hof : row'.isOf name g = row.isOf name g := by simp only [ProjectionGeneration.isOf, h1, h2]
    dsimp only [published]
    rw [hof]
    by_cases h : row.isOf name g = true
    · simp only [h, if_true]
      refine ⟨h1, h2, fun hne => ?_, ?_⟩
      · simp [ProjectionGeneration.isOf, hne] at h
      · simp only [ProjectionGeneration.isOf, Bool.and_eq_true, decide_eq_true_eq] at h
        simp [ProjectionGeneration.isPublished, h2, h.1]
    · simp only [h, Bool.false_eq_true, if_false]
      refine ⟨h1, h2, h3, ?_⟩
      rw [Bool.eq_false_iff]
      intro hp
      obtain ⟨hp', hg⟩ := h4 hp
      exact hg (List.mem_map_of_mem (List.mem_filter.2 ⟨hr, hp'⟩))

/-- The generation that is published is what reads see then, if it is there. -/
theorem publish_current (gracePeriod : Nat) (t : GenerationTable) (name : String) (g now : Nat) :
    (t.publish gracePeriod name g now).currentGeneration name = if t.any (·.isOf name g) then some g else none := by
  obtain ⟨f, ht, hf⟩ := publish_eq gracePeriod t name g now
  have hfilter : (t.publish gracePeriod name g now).filter (·.isPublished name) = (t.filter (·.isOf name g)).map f := by
    rw [ht, List.filter_map]
    exact congrArg (List.map f) (List.filter_congr fun row hr => (hf row hr).2.2.2)
  have hall : ∀ n ∈ (((t.publish gracePeriod name g now).filter (·.isPublished name)).map (·.generation)), n = g := by
    intro n hn
    rw [hfilter, List.map_map, List.mem_map] at hn
    obtain ⟨row, hr, rfl⟩ := hn
    obtain ⟨hr, hof⟩ := List.mem_filter.1 hr
    simp only [ProjectionGeneration.isOf, Bool.and_eq_true, decide_eq_true_eq] at hof
    exact (hf row hr).1.trans hof.2
  unfold currentGeneration
  split
  · rename_i hany
    obtain ⟨row, hr, hof⟩ := List.any_eq_true.1 hany
    have hmem : f row ∈ (t.publish gracePeriod name g now).filter (·.isPublished name) := by
      rw [hfilter]
      exact List.mem_map_of_mem (List.mem_filter.2 ⟨hr, hof⟩)
    have hg := hall _ (List.mem_map_of_mem hmem)
    have hin := List.mem_map_of_mem (f := (·.generation)) hmem
    rw [hg] at hin
    exact List.max?_eq_some_iff.2 ⟨hin, fun b hb => (hall b hb).le⟩
  · rename_i hany
    have hnone : t.filter (·.isOf name g) = [] := by
      rw [List.filter_eq_nil_iff]
      exact fun row hr hof => hany (List.any_eq_true.2 ⟨row, hr, hof⟩)
    rw [hfilter, hnone]
    rfl

/-- Publishing leaves the other projections. -/
theorem publish_other {gracePeriod : Nat} {t : GenerationTable} {name name' : String} {g now : Nat} (hne : name' ≠ name) :
    (t.publish gracePeriod name g now).currentGeneration name' = t.currentGeneration name' := by
  obtain ⟨f, ht, hf⟩ := publish_eq gracePeriod t name g now
  rw [ht]
  apply currentGeneration_map
  · exact fun row hr => (hf row hr).1
  · intro row hr
    by_cases hrow : row.projectionName = name
    · have hother : row.projectionName ≠ name' := fun he => hne (he ▸ hrow)
      simp [ProjectionGeneration.isPublished, (hf row hr).2.1, hother]
    · rw [(hf row hr).2.2.1 hrow]

end GenerationTable

end Umd.Projections
