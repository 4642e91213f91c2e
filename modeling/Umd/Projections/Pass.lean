import Umd.Projections.SearchEdges
/-!
# The projection pass

`_run_projection_pass` of the `CURRENT_SEARCH_PROJECTION` stage: the three
builders in a fixed order on one driver, once more while the search run finds
the edges behind. Other transactions commit before each run.
-/

namespace Umd.Projections

open Umd.Lib Umd.Events Umd.Reducer Umd.Ledger

/-- `CurrentTierOneBuilder`. -/
def currentBuilder : Builder Table where
  projectionName := "current_tier1"
  poisonEnabled := false
  prepare := fun _ t => .ok t
  wipe := fun _ _ => .ok fun _ => none
  apply := fun _ _ t => .ok t
  onSkip := fun _ _ t => .ok t
  onPause := fun _ _ t => .ok t
  finalize := fun d t => .ok (persist t d.state)

/-- `current_state` among the stores. -/
def currentPart : Part Stores Table where
  get := (·.current)
  put := fun current t => { t with current := current }
  get_put := fun _ _ => rfl
  put_get := Stores.eta
  put_put := fun _ _ _ => rfl

/-- `_CURRENT_SEARCH_MAX_PASS_ATTEMPTS`. -/
def maxPassAttempts : Nat := 3

section
variable (listed : CurrentReducedState → List Key)

/-- The runs of one attempt; `others k` is what other transactions make of the database before the `k`-th. -/
def attempt (others : Nat → Projected Stores → Projected Stores) (db : Projected Stores) (d : Driver) :
    Projected Stores × Driver × Except PyError (List BuildReport) :=
  match runLocked (currentBuilder.over currentPart) true false (others 0 db) d with
  | (db, d, .error e) => (db, d, .error e)
  | (db, d, .ok tier1) =>
    match runLocked (edgeBuilder.over edgesPart) true false (others 1 db) d with
    | (db, d, .error e) => (db, d, .error e)
    | (db, d, .ok edges) =>
      let db := others 2 db
      match runLocked (searchBuilder listed publicSchema (db.checkpoints edgeProjection)) true true db d with
      | (db, d, .error e) => (db, d, .error e)
      | (db, d, .ok search) => (db, d, .ok [tier1, edges, search])

/-- `_run_projection_pass` with this many attempts left. -/
def projectionPass : Nat → (Nat → Nat → Projected Stores → Projected Stores) → Projected Stores → Driver →
    Projected Stores × Driver × Except PyError (List BuildReport)
  | 0, _, db, d => (db, d, .error .runtimeError)
  | n + 1, others, db, d =>
    match attempt listed (others n) db d with
    | (db, d, .error .runtimeError) => projectionPass n others db d
    | out => out

end

/-- A pass that returns reports has ended with a search run that wipes and resumes. -/
theorem projectionPass_search {listed : CurrentReducedState → List Key} {others : Nat → Nat → Projected Stores → Projected Stores}
    {n : Nat} {db db' : Projected Stores} {d d' : Driver} {reports : List BuildReport}
    (h : projectionPass listed n others db d = (db', d', .ok reports)) :
    ∃ db₀ d₀ report, runLocked (searchBuilder listed publicSchema (db₀.checkpoints edgeProjection)) true true db₀ d₀ =
      (db', d', .ok report) := by
  induction n generalizing db d with
  | zero => cases h
  | succ n ih =>
    rw [projectionPass] at h
    split at h
    · exact ih h
    · unfold attempt at h
      split at h
      · cases h
      · split at h
        · cases h
        · dsimp only at h
          split at h
          · cases h
          · rename_i hrun
            cases h
            exact ⟨_, _, _, hrun⟩

end Umd.Projections
