import Umd.Storage.Ledger
/-!
# The Tier-1 current-state projection

`rebuild` is a wiping run of `CurrentTierOneBuilder`: the whole log upcast and
folded in seq order from the empty state, and the rows written to the empty
table.
-/

namespace Umd.Projections

open Umd.Lib Umd.Events Umd.Reducer Umd.Ledger

/-- `ReplayDriver._upcast`. -/
def upcast (row : EventRow) : SemanticEvent where
  eventType := row.eventType
  payload := (upcastPayload row.eventType (if row.eventVersion = 0 then 1 else row.eventVersion) row.payload).2
  authority := row.authority
  confidence := row.confidence
  generatedBy := row.generatedBy
  createdBy := row.createdBy
  seq := some row.seq

/-- `ReplayDriver._load_events`: the rows past a seq, in seq order. -/
def loadEvents (rows : List EventRow) (after : Nat) : List EventRow :=
  (rows.filter fun r => after < r.seq).insertionSort fun r r' => r.seq ≤ r'.seq

/-- The canonical fold of `_run_locked`: every semantic event of the log. -/
def canonicalFold (rows : List EventRow) : Except PyError CurrentReducedState :=
  replay (((loadEvents rows 0).map upcast).filter (·.isSemantic))

/-- `CurrentTierOneBuilder._persist`, as the inline path persists. -/
def persist (t : Table) (s : CurrentReducedState) : Table := persistDelta t s

/-- `wipe`, the fold, and `finalize`. -/
def rebuild (rows : List EventRow) : Except PyError Table :=
  (canonicalFold rows).map (persist fun _ => none)

end Umd.Projections
