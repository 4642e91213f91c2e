import Umd.Lib.Steps
import Umd.Projections.Publish
/-!
# The lifecycle of generations

The calls of `ProjectionPublishManager` in any order, beside the schemas that
their statements create and drop. `readName` is how the server reads a schema
name in a statement, none where the statement fails. Whatever is called, a
projection has one published generation at most; its schema is there as long as
only generations that have one are published, and no other generation's name
reads like it when that one is dropped (`lifecycle_iff`).
-/

namespace Umd.Projections

open Umd.Lib

namespace GenerationTable

/-- `retire`. -/
def retire (gracePeriod : Nat) (t : GenerationTable) (name : String) (generation now : Nat) : GenerationTable :=
  t.update (·.isOf name generation) fun row => { row with state := .retired, graceDeadline := some (now + gracePeriod) }

/-- The retired rows whose grace period has expired. -/
def expired (t : GenerationTable) (now : Nat) : GenerationTable :=
  t.filter fun row => row.state = .retired && row.graceDeadline.any (· ≤ now)

/-- A row that is reaped. -/
def reaped (row : ProjectionGeneration) : ProjectionGeneration := { row with state := .reaped, graceDeadline := none }

/-- `reap_expired`: the table, and the rows that were reaped. -/
def reapExpired (t : GenerationTable) (now : Nat) : GenerationTable × List ProjectionGeneration :=
  ((t.expired now).foldl (fun t r => t.update (·.isOf r.projectionName r.generation) reaped) t, (t.expired now).map reaped)

/-- The row `drop_generation` deletes. -/
def dropGeneration (t : GenerationTable) (name : String) (generation : Nat) : GenerationTable :=
  t.filter fun row => !row.isOf name generation

end GenerationTable

/-! ## The system -/

/-- `projection_generation`, and the schemas there are. -/
structure PublishStore where
  rows : GenerationTable := []
  schemas : List String := []

inductive PublishAct where
  | beginBuild (name : String)
  | markBuilt (name : String) (generation checkpointSeq : Nat)
  | publish (name : String) (generation now : Nat)
  | retire (name : String) (generation now : Nat)
  | reapExpired (now : Nat)
  | dropGeneration (name : String) (generation : Nat)

section
variable (readName : String → Option String) (gracePeriod : Nat)

namespace PublishStore

/-- The store after a call; none where a statement fails, which leaves it as it was. -/
def step (s : PublishStore) : PublishAct → Option PublishStore
  | .beginBuild name =>
    (readName (schemaFor name (s.rows.nextGeneration name))).map fun schema =>
      { rows := (s.rows.beginBuild name).1, schemas := schema :: s.schemas }
  | .markBuilt name g n => some { s with rows := s.rows.markBuilt name g n }
  | .publish name g now => some { s with rows := s.rows.publish gracePeriod name g now }
  | .retire name g now => some { s with rows := s.rows.retire gracePeriod name g now }
  | .reapExpired now =>
    ((s.rows.expired now).mapM fun row => readName row.schemaName).map fun dropped =>
      { rows := (s.rows.reapExpired now).1, schemas := s.schemas.filter (· ∉ dropped) }
  | .dropGeneration name g =>
    (readName (schemaFor name g)).map fun schema =>
      { rows := s.rows.dropGeneration name g, schemas := s.schemas.filter (· ≠ schema) }

/-- The schema of a row is there. -/
def HasSchema (s : PublishStore) (row : ProjectionGeneration) : Prop := ∃ schema ∈ s.schemas, readName row.schemaName = some schema

/-- A projection has a published generation. -/
def Serves (s : PublishStore) (name : String) : Prop := ∃ row ∈ s.rows, row.isPublished name = true

/-- One published generation of a projection at most, with its schema. -/
structure Sound (s : PublishStore) : Prop where
  one : ∀ name, ∀ row ∈ s.rows, ∀ row' ∈ s.rows, row.isPublished name = true → row'.isPublished name = true → row = row'
  schema : ∀ name, ∀ row ∈ s.rows, row.isPublished name = true → s.HasSchema readName row

/-- Publishing takes the published generation from no projection. -/
def KeepsServing (s : PublishStore) : PublishAct → PublishStore → Prop
  | .publish .., s' => ∀ name, s.Serves name → s'.Serves name
  | _, _ => True

/-- What is published has a schema, and is there when it takes the place of another; what is dropped reads like the schema
of no other published generation. -/
def Meets (s : PublishStore) : PublishAct → Prop
  | .publish name g _ =>
    (∀ row ∈ s.rows, row.isOf name g = true → s.HasSchema readName row) ∧
      (s.Serves name → ∃ row ∈ s.rows, row.isOf name g = true)
  | .reapExpired now => ∀ old ∈ s.rows.expired now, ∀ name, ∀ row ∈ s.rows, row.isPublished name = true →
    readName row.schemaName ≠ readName old.schemaName
  | .dropGeneration name g => ∀ name', ∀ row ∈ s.rows, row.isPublished name' = true → row.isOf name g = false →
    readName row.schemaName ≠ readName (schemaFor name g)
  | _ => True

end PublishStore

end

/-! ## What the statements leave -/

/-- The primary key of a row and its schema, which no update changes. -/
def ProjectionGeneration.ident (row : ProjectionGeneration) : String × Nat × String :=
  (row.projectionName, row.generation, row.schemaName)

/-- The rows as `begin_build` names them, one for each generation. -/
structure Registered (t : GenerationTable) : Prop where
  keys : t.Pairwise fun row row' => ¬ (row.projectionName = row'.projectionName ∧ row.generation = row'.generation)
  schemas : ∀ row ∈ t, row.schemaName = schemaFor row.projectionName row.generation

theorem Registered.eq {t : GenerationTable} (h : Registered t) {row row' : ProjectionGeneration} (hr : row ∈ t) (hr' : row' ∈ t)
    (hn : row.projectionName = row'.projectionName) (hg : row.generation = row'.generation) : row = row' := by
  by_contra hne
  have hsymm : Std.Symm fun row row' : ProjectionGeneration =>
      ¬ (row.projectionName = row'.projectionName ∧ row.generation = row'.generation) :=
    ⟨fun _ _ hnot he => hnot ⟨he.1.symm, he.2.symm⟩⟩
  exact h.keys.forall hr hr' hne ⟨hn, hg⟩

theorem Registered.map {t : GenerationTable} (h : Registered t) {f : ProjectionGeneration → ProjectionGeneration}
    (hf : ∀ row ∈ t, (f row).ident = row.ident) : Registered (t.map f) := by
  have hident : ∀ row ∈ t, (f row).projectionName = row.projectionName ∧ (f row).generation = row.generation ∧
      (f row).schemaName = row.schemaName := fun row hr => by simpa [ProjectionGeneration.ident] using hf row hr
  constructor
  · rw [List.pairwise_map]
    refine h.keys.imp_of_mem fun hr hr' hne => ?_
    rw [(hident _ hr).1, (hident _ hr).2.1, (hident _ hr').1, (hident _ hr').2.1]
    exact hne
  · intro row' hr'
    obtain ⟨row, hr, rfl⟩ := List.mem_map.1 hr'
    rw [(hident _ hr).1, (hident _ hr).2.1, (hident _ hr).2.2]
    exact h.schemas row hr

namespace GenerationTable

/-- Updates of one kind in turn are one update. -/
theorem update_foldl {α : Type} {set : ProjectionGeneration → ProjectionGeneration} {p : α → ProjectionGeneration → Bool}
    (hset : ∀ row, set (set row) = set row) (hp : ∀ a row, p a (set row) = p a row) (as : List α) (t : GenerationTable) :
    as.foldl (fun t a => t.update (p a) set) t = t.update (fun row => as.any fun a => p a row) set := by
  induction as generalizing t with
  | nil => simp [update]
  | cons a as ih =>
    rw [List.foldl_cons, ih]
    unfold update
    rw [List.map_map]
    apply List.map_congr_left
    intro row _
    simp only [Function.comp_apply, List.any_cons]
    by_cases h : p a row = true <;> simp [h, hset, hp]

/-- The rows `reap_expired` leaves. -/
theorem reapExpired_eq {t : GenerationTable} (h : Registered t) (now : Nat) :
    (t.reapExpired now).1 = t.map fun row => if row ∈ t.expired now then reaped row else row := by
  have hloop := @update_foldl ProjectionGeneration reaped (fun r row => row.isOf r.projectionName r.generation) (fun _ => rfl)
    (fun _ _ => rfl) (t.expired now) t
  change (t.expired now).foldl _ t = _
  rw [hloop]
  apply List.map_congr_left
  intro row hr
  congr 1
  rw [List.any_eq_true]
  refine propext ⟨fun ⟨old, hold, hof⟩ => ?_, fun hrow => ⟨row, hrow, by simp [ProjectionGeneration.isOf]⟩⟩
  simp only [ProjectionGeneration.isOf, Bool.and_eq_true, decide_eq_true_eq] at hof
  rwa [h.eq hr (List.mem_of_mem_filter hold) hof.1 hof.2]

theorem publish_registered {t : GenerationTable} (h : Registered t) (gracePeriod : Nat) (name : String) (g now : Nat) :
    Registered (t.publish gracePeriod name g now) := by
  have hupdate : ∀ {t : GenerationTable} {p : ProjectionGeneration → Bool} {set : ProjectionGeneration → ProjectionGeneration},
      Registered t → (∀ row, (set row).ident = row.ident) → Registered (t.update p set) := by
    intro t p set ht hset
    refine ht.map fun row _ => ?_
    split
    · exact hset row
    · rfl
  have hloop : ∀ (gs : List Nat) {t : GenerationTable}, Registered t →
      Registered (gs.foldl (fun t g => t.update (·.isOf name g) fun row =>
        { row with state := .retired, graceDeadline := some (now + gracePeriod) }) t) := by
    intro gs
    induction gs with
    | nil => exact fun ht => ht
    | cons g gs ih => exact fun ht => ih (hupdate ht fun _ => rfl)
  exact hupdate (hloop _ h) fun _ => rfl

/-- What `publish` makes of the published rows. -/
theorem publish_rows {t : GenerationTable} (h : Registered t) (gracePeriod : Nat) (name : String) (g now : Nat) :
    ∃ f : ProjectionGeneration → ProjectionGeneration, t.publish gracePeriod name g now = t.map f ∧
      ∀ row ∈ t, (f row).schemaName = row.schemaName ∧
        ∀ name', (f row).isPublished name' = if name' = name then row.isOf name g else row.isPublished name' := by
  obtain ⟨f, ht, hf⟩ := publish_eq gracePeriod t name g now
  refine ⟨f, ht, fun row hr => ⟨?_, fun name' => ?_⟩⟩
  · have hreg := publish_registered h gracePeriod name g now
    have hmem : f row ∈ t.publish gracePeriod name g now := by
      rw [ht]
      exact List.mem_map_of_mem hr
    rw [hreg.schemas _ hmem, (hf row hr).1, (hf row hr).2.1, h.schemas row hr]
  · split
    · rename_i he
      rw [he]
      exact (hf row hr).2.2.2
    · rename_i hne
      by_cases hrow : row.projectionName = name
      · have hother : row.projectionName ≠ name' := fun he => hne (he ▸ hrow)
        simp [ProjectionGeneration.isPublished, (hf row hr).2.1, hother]
      · rw [(hf row hr).2.2.1 hrow]

end GenerationTable

/-! ## One call -/

namespace PublishStore

section
variable {readName : String → Option String} {gracePeriod : Nat}

/-- Rows that take the place of others, none of them published but those that were. -/
theorem Sound.map {s : PublishStore} (h : s.Sound readName) {f : ProjectionGeneration → ProjectionGeneration}
    (hf : ∀ row ∈ s.rows, (f row).schemaName = row.schemaName ∧
      ∀ name, (f row).isPublished name = true → row.isPublished name = true) :
    Sound readName { s with rows := s.rows.map f } := by
  constructor
  · intro name row₁ hr₁ row₂ hr₂ hp₁ hp₂
    obtain ⟨row, hr, rfl⟩ := List.mem_map.1 hr₁
    obtain ⟨row', hr', rfl⟩ := List.mem_map.1 hr₂
    rw [h.one name row hr row' hr' ((hf row hr).2 name hp₁) ((hf row' hr').2 name hp₂)]
  · intro name row₁ hr₁ hp
    obtain ⟨row, hr, rfl⟩ := List.mem_map.1 hr₁
    obtain ⟨schema, hs, hread⟩ := h.schema name row hr ((hf row hr).2 name hp)
    exact ⟨schema, hs, by rw [(hf row hr).1, hread]⟩

theorem isPublished_state {row : ProjectionGeneration} {name : String} (h : row.isPublished name = true) :
    row.projectionName = name ∧ row.state = .published := by
  simpa only [ProjectionGeneration.isPublished, Bool.and_eq_true, decide_eq_true_eq] using h

theorem beginBuild_sound {s : PublishStore} (h : s.Sound readName) (name schema : String) :
    Sound readName { rows := (s.rows.beginBuild name).1, schemas := schema :: s.schemas } := by
  have hold : ∀ name', ∀ row ∈ (s.rows.beginBuild name).1, row.isPublished name' = true → row ∈ s.rows := by
    intro name' row hr hp
    rw [GenerationTable.beginBuild_eq, List.mem_append] at hr
    rcases hr with hr | hr
    · exact hr
    · rw [List.mem_singleton] at hr
      subst hr
      simp [ProjectionGeneration.isPublished] at hp
  constructor
  · exact fun name' row hr row' hr' hp hp' => h.one name' row (hold name' row hr hp) row' (hold name' row' hr' hp') hp hp'
  · intro name' row hr hp
    obtain ⟨schema', hs, hread⟩ := h.schema name' row (hold name' row hr hp) hp
    exact ⟨schema', List.mem_cons_of_mem _ hs, hread⟩

theorem publish_iff {s : PublishStore} (hn : Registered s.rows) (h : s.Sound readName) (name : String) (g now : Nat) :
    (Sound readName { s with rows := s.rows.publish gracePeriod name g now } ∧
      ∀ name', s.Serves name' → Serves { s with rows := s.rows.publish gracePeriod name g now } name') ↔
    s.Meets readName (.publish name g now) := by
  obtain ⟨f, ht, hf⟩ := GenerationTable.publish_rows hn gracePeriod name g now
  rw [ht]
  constructor
  · rintro ⟨hsound, hserves⟩
    constructor
    · intro row hr hof
      have hp : (f row).isPublished name = true := by rw [(hf row hr).2, if_pos rfl, hof]
      obtain ⟨schema, hs, hread⟩ := hsound.schema name (f row) (List.mem_map_of_mem hr) hp
      exact ⟨schema, hs, (hf row hr).1 ▸ hread⟩
    · intro hserved
      obtain ⟨row', hr', hp⟩ := hserves name hserved
      obtain ⟨row, hr, rfl⟩ := List.mem_map.1 hr'
      rw [(hf row hr).2, if_pos rfl] at hp
      exact ⟨row, hr, hp⟩
  · rintro ⟨hschema, hthere⟩
    refine ⟨⟨?_, ?_⟩, ?_⟩
    · intro name' row₁ hr₁ row₂ hr₂ hp₁ hp₂
      obtain ⟨row, hr, rfl⟩ := List.mem_map.1 hr₁
      obtain ⟨row', hr', rfl⟩ := List.mem_map.1 hr₂
      rw [(hf row hr).2] at hp₁
      rw [(hf row' hr').2] at hp₂
      split at hp₁
      · rename_i he
        rw [if_pos he] at hp₂
        simp only [ProjectionGeneration.isOf, Bool.and_eq_true, decide_eq_true_eq] at hp₁ hp₂
        rw [hn.eq hr hr' (hp₁.1.trans hp₂.1.symm) (hp₁.2.trans hp₂.2.symm)]
      · rename_i hne
        rw [if_neg hne] at hp₂
        rw [h.one name' row hr row' hr' hp₁ hp₂]
    · intro name' row₁ hr₁ hp
      obtain ⟨row, hr, rfl⟩ := List.mem_map.1 hr₁
      rw [(hf row hr).2] at hp
      have hold : s.HasSchema readName row := by
        split at hp
        · exact hschema row hr hp
        · exact h.schema name' row hr hp
      obtain ⟨schema, hs, hread⟩ := hold
      exact ⟨schema, hs, by rw [(hf row hr).1, hread]⟩
    · rintro name' ⟨row, hr, hp⟩
      by_cases he : name' = name
      · subst he
        obtain ⟨row', hr', hof⟩ := hthere ⟨row, hr, hp⟩
        exact ⟨f row', List.mem_map_of_mem hr', by rw [(hf row' hr').2, if_pos rfl, hof]⟩
      · exact ⟨f row, List.mem_map_of_mem hr, by rw [(hf row hr).2, if_neg he, hp]⟩

/-- What a function yields for all of a list. -/
theorem mem_mapM {α β : Type} {f : α → Option β} : ∀ {xs : List α} {ys : List β}, xs.mapM f = some ys →
    ∀ y, y ∈ ys ↔ ∃ x ∈ xs, f x = some y := by
  intro xs
  induction xs with
  | nil =>
    intro ys h y
    cases h
    simp
  | cons x xs ih =>
    intro ys h y
    rw [List.mapM_cons] at h
    obtain ⟨y', hy', h⟩ := Option.bind_eq_some_iff.1 h
    obtain ⟨ys', hys', h⟩ := Option.bind_eq_some_iff.1 h
    cases h
    rw [List.mem_cons, ih hys']
    simp [hy', eq_comm]

/-- Dropping schemas leaves those of the rows whose names read like one that is kept. -/
theorem hasSchema_drop {s : PublishStore} {rows : GenerationTable} {keep : String → Bool} {row : ProjectionGeneration} :
    HasSchema readName { rows := rows, schemas := s.schemas.filter keep } row ↔
      s.HasSchema readName row ∧ ∀ schema, readName row.schemaName = some schema → keep schema = true := by
  constructor
  · rintro ⟨schema, hs, hread⟩
    obtain ⟨hs, hkeep⟩ := List.mem_filter.1 hs
    refine ⟨⟨schema, hs, hread⟩, fun schema' hread' => ?_⟩
    rw [hread] at hread'
    cases hread'
    exact hkeep
  · rintro ⟨⟨schema, hs, hread⟩, hkeep⟩
    exact ⟨schema, List.mem_filter.2 ⟨hs, hkeep schema hread⟩, hread⟩

theorem reapExpired_iff {s : PublishStore} (hn : Registered s.rows) (h : s.Sound readName) {now : Nat} {dropped : List String}
    (hdropped : ((s.rows.expired now).mapM fun row => readName row.schemaName) = some dropped) :
    Sound readName { rows := (s.rows.reapExpired now).1, schemas := s.schemas.filter (· ∉ dropped) } ↔
      s.Meets readName (.reapExpired now) := by
  have hread := mem_mapM hdropped
  -- a row that stays published is none of those that are reaped
  have hkept : ∀ name, ∀ row ∈ s.rows, row.isPublished name = true →
      (if row ∈ s.rows.expired now then GenerationTable.reaped row else row) = row := by
    intro name row _ hp
    refine if_neg fun hold => ?_
    have hstate := (List.mem_filter.1 hold).2
    rw [(isPublished_state hp).2] at hstate
    simp at hstate
  have hback : ∀ name, ∀ row' ∈ (s.rows.reapExpired now).1, row'.isPublished name = true → row' ∈ s.rows := by
    intro name row' hr' hp
    rw [GenerationTable.reapExpired_eq hn] at hr'
    obtain ⟨row, hr, rfl⟩ := List.mem_map.1 hr'
    split at hp
    · simp [GenerationTable.reaped, ProjectionGeneration.isPublished] at hp
    · rename_i hnot
      rw [if_neg hnot]
      exact hr
  have hforth : ∀ name, ∀ row ∈ s.rows, row.isPublished name = true → row ∈ (s.rows.reapExpired now).1 := by
    intro name row hr hp
    rw [GenerationTable.reapExpired_eq hn]
    exact List.mem_map.2 ⟨row, hr, hkept name row hr hp⟩
  constructor
  · intro hsound old hold name row hr hp he
    obtain ⟨schema, -, hschema⟩ := h.schema name row hr hp
    have hkeep := (hasSchema_drop.1 (hsound.schema name row (hforth name row hr hp) hp)).2 schema hschema
    simp only [decide_eq_true_eq] at hkeep
    exact hkeep ((hread schema).2 ⟨old, hold, he ▸ hschema⟩)
  · intro hmeets
    constructor
    · exact fun name row hr row' hr' hp hp' =>
        h.one name row (hback name row hr hp) row' (hback name row' hr' hp') hp hp'
    · intro name row hr hp
      refine hasSchema_drop.2 ⟨h.schema name row (hback name row hr hp) hp, fun schema hschema => ?_⟩
      rw [decide_eq_true_eq]
      intro hgone
      obtain ⟨old, hold, hread'⟩ := (hread schema).1 hgone
      exact hmeets old hold name row (hback name row hr hp) hp (hschema.trans hread'.symm)

theorem dropGeneration_iff {s : PublishStore} (h : s.Sound readName) {name schema : String} {g : Nat}
    (hread : readName (schemaFor name g) = some schema) :
    Sound readName { rows := s.rows.dropGeneration name g, schemas := s.schemas.filter (· ≠ schema) } ↔
      s.Meets readName (.dropGeneration name g) := by
  have hmem : ∀ row, row ∈ s.rows.dropGeneration name g ↔ row ∈ s.rows ∧ row.isOf name g = false := by
    intro row
    rw [GenerationTable.dropGeneration, List.mem_filter, Bool.not_eq_true']
  constructor
  · intro hsound name' row hr hp hof he
    have hkeep := (hasSchema_drop.1 (hsound.schema name' row ((hmem row).2 ⟨hr, hof⟩) hp)).2 schema (he.trans hread)
    simp at hkeep
  · intro hmeets
    constructor
    · exact fun name' row hr row' hr' hp hp' =>
        h.one name' row ((hmem row).1 hr).1 row' ((hmem row').1 hr').1 hp hp'
    · intro name' row hr hp
      obtain ⟨hrow, hof⟩ := (hmem row).1 hr
      refine hasSchema_drop.2 ⟨h.schema name' row hrow hp, fun schema' hschema => ?_⟩
      rw [decide_eq_true_eq]
      rintro rfl
      exact hmeets name' row hrow hp hof (hschema.trans hread.symm)

/-! ## Runs -/

theorem step_registered {s s' : PublishStore} {act : PublishAct} (h : Registered s.rows)
    (hstep : s.step readName gracePeriod act = some s') : Registered s'.rows := by
  cases act with
  | beginBuild name =>
    obtain ⟨schema, -, rfl⟩ := Option.map_eq_some_iff.1 hstep
    dsimp only
    rw [GenerationTable.beginBuild_eq]
    have hfresh := s.rows.nextGeneration_fresh name
    rw [List.any_eq_false] at hfresh
    constructor
    · rw [List.pairwise_append]
      refine ⟨h.keys, List.pairwise_singleton .., fun row hr row' hr' he => ?_⟩
      rw [List.mem_singleton] at hr'
      subst hr'
      exact hfresh row hr (by simp [ProjectionGeneration.isOf, he.1, he.2])
    · intro row hr
      rcases List.mem_append.1 hr with hr | hr
      · exact h.schemas row hr
      · rw [List.mem_singleton] at hr
        rw [hr]
  | markBuilt name g n =>
    cases hstep
    refine h.map fun row _ => ?_
    split <;> rfl
  | publish name g now =>
    cases hstep
    exact GenerationTable.publish_registered h gracePeriod name g now
  | retire name g now =>
    cases hstep
    refine h.map fun row _ => ?_
    split <;> rfl
  | reapExpired now =>
    obtain ⟨dropped, -, rfl⟩ := Option.map_eq_some_iff.1 hstep
    dsimp only
    rw [GenerationTable.reapExpired_eq h]
    refine h.map fun row _ => ?_
    split <;> rfl
  | dropGeneration name g =>
    obtain ⟨schema, -, rfl⟩ := Option.map_eq_some_iff.1 hstep
    exact ⟨h.keys.filter _, fun row hr => h.schemas row (List.mem_of_mem_filter hr)⟩

/-- A call leaves the store sound, and every projection that was served, if and only if it meets the condition. -/
theorem step_iff {s s' : PublishStore} {act : PublishAct} (hn : Registered s.rows) (h : s.Sound readName)
    (hstep : s.step readName gracePeriod act = some s') :
    (s'.Sound readName ∧ s.KeepsServing act s') ↔ s.Meets readName act := by
  cases act with
  | beginBuild name =>
    obtain ⟨schema, -, rfl⟩ := Option.map_eq_some_iff.1 hstep
    exact ⟨fun _ => trivial, fun _ => ⟨beginBuild_sound h name schema, trivial⟩⟩
  | markBuilt name g n =>
    cases hstep
    refine ⟨fun _ => trivial, fun _ => ⟨h.map fun row _ => ?_, trivial⟩⟩
    split <;> exact ⟨rfl, fun _ hp => hp⟩
  | publish name g now =>
    cases hstep
    exact publish_iff hn h name g now
  | retire name g now =>
    cases hstep
    refine ⟨fun _ => trivial, fun _ => ⟨h.map fun row _ => ?_, trivial⟩⟩
    split
    · exact ⟨rfl, fun name' hp => absurd (isPublished_state hp).2 (by simp)⟩
    · exact ⟨rfl, fun _ hp => hp⟩
  | reapExpired now =>
    obtain ⟨dropped, hdropped, rfl⟩ := Option.map_eq_some_iff.1 hstep
    exact ⟨fun hs => (reapExpired_iff hn h hdropped).1 hs.1, fun hm => ⟨(reapExpired_iff hn h hdropped).2 hm, trivial⟩⟩
  | dropGeneration name g =>
    obtain ⟨schema, hread, rfl⟩ := Option.map_eq_some_iff.1 hstep
    exact ⟨fun hs => (dropGeneration_iff h hread).1 hs.1, fun hm => ⟨(dropGeneration_iff h hread).2 hm, trivial⟩⟩

/-- The rows are named in every state that is reached. -/
theorem reached_registered {schemas : List String} {ok : PublishStore → PublishAct → Prop} {s : PublishStore}
    (h : Run (step readName gracePeriod) ok { schemas := schemas } s) : Registered s.rows :=
  h.inv (fun s => Registered s.rows) ⟨.nil, fun _ hr => absurd hr List.not_mem_nil⟩ fun _ _ _ hi _ hstep => step_registered hi hstep

/-- Calls that all meet the condition leave the store sound. -/
theorem reached_sound {schemas : List String} {s : PublishStore}
    (h : Run (step readName gracePeriod) (Meets readName) { schemas := schemas } s) : s.Sound readName := by
  induction h with
  | refl => exact ⟨fun _ _ hr => absurd hr List.not_mem_nil, fun _ _ hr => absurd hr List.not_mem_nil⟩
  | step hrun hok hstep ih => exact ((step_iff (reached_registered hrun) ih hstep).2 hok).1

end

/-- **After calls that all meet the condition a projection has one published generation at most, with its schema, and the
next call leaves that so, and takes it from no projection by publishing, if and only if it meets the condition.** -/
theorem lifecycle_iff (readName : String → Option String) (gracePeriod : Nat) {schemas : List String} {s : PublishStore}
    (h : Run (step readName gracePeriod) (Meets readName) { schemas := schemas } s) :
    s.Sound readName ∧ ∀ act s', s.step readName gracePeriod act = some s' →
      ((s'.Sound readName ∧ s.KeepsServing act s') ↔ s.Meets readName act) :=
  ⟨reached_sound h, fun _ _ hstep => step_iff (reached_registered h) (reached_sound h) hstep⟩

/-- A first generation, published. -/
theorem lifecycle_iff_first : ∃ s, Serves s "search" ∧ s.Sound some := by
  let built : PublishStore := { rows := (GenerationTable.beginBuild [] "search").1, schemas := ["proj_search_1"] }
  have hbuilt : Run (step some 300) (Meets some) {} built := .step (a := .beginBuild "search") .refl trivial rfl
  have hmeets : built.Meets some (.publish "search" 1 0) :=
    ⟨fun row hr _ => ⟨"proj_search_1", by decide, by rw [List.mem_singleton.1 hr]; rfl⟩,
      fun _ => ⟨_, List.mem_singleton.2 rfl, by decide⟩⟩
  exact ⟨_, ⟨_, List.mem_singleton.2 rfl, by decide⟩, (lifecycle_iff some 300 (.step hbuilt hmeets rfl)).1⟩

/-- Publishing an unknown generation leaves none published. -/
theorem unknown_takes_place : ¬ ∀ readName gracePeriod schemas s,
    Run (step readName gracePeriod) Any { schemas := schemas } s → s.Sound readName ∧
      ∀ act s', s.step readName gracePeriod act = some s' → s'.Sound readName ∧ s.KeepsServing act s' := by
  intro hall
  let published : PublishStore :=
    { rows := GenerationTable.publish 300 (GenerationTable.beginBuild [] "search").1 "search" 1 0, schemas := ["proj_search_1"] }
  have hacts : runAll (step some 300) {} [.beginBuild "search", .publish "search" 1 0] = some published := rfl
  have hrun : Run (step some 300) Any {} published := run_of_runAll hacts
  obtain ⟨row, hr, hp⟩ := ((hall some 300 [] published hrun).2 (.publish "search" 7 0) _ rfl).2 "search"
    ⟨_, List.mem_singleton.2 rfl, by decide⟩
  have hnone : ∀ row ∈ GenerationTable.publish 300 published.rows "search" 7 0, row.isPublished "search" = false := by decide
  rw [hnone row hr] at hp
  cases hp

end PublishStore

end Umd.Projections
