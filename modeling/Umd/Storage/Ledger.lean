import Umd.Storage.Prepared
/-!
# The semantic ledger

`append` in one transaction: idempotency look-up, tail check, validation, event
inserts, and the Tier-0 delta (load the affected rows, fold the batch, upsert
what the fold left). The inserts are one function per row, so that a system of
concurrent transactions can take them one at a time.
-/

namespace Umd.Ledger

open Umd.Lib Umd.Events Umd.Reducer

/-- A UUID by its canonical text. -/
abbrev Uuid := String

/-- A row of `semantic_event`. -/
structure EventRow where
  seq : Nat
  eventType : EventType
  eventVersion : Nat
  schemaUrl : String
  payload : Dict
  authority : Option String
  confidence : Option Number
  generatedBy : Dict
  correlationId : Option String
  causationId : Option Nat
  createdBy : Option String
  idempotencyKey : Option Uuid

/-- The row a prepared event is inserted as. -/
def EventRow.of (pe : PreparedEvent) (seq : Nat) (key : Option Uuid) : EventRow where
  seq := seq
  eventType := pe.eventType
  eventVersion := pe.eventVersion
  schemaUrl := pe.schemaUrl
  payload := pe.payload
  authority := pe.authority
  confidence := pe.confidence
  generatedBy := pe.generatedBy
  correlationId := pe.correlationId
  causationId := pe.causationId
  createdBy := pe.createdBy
  idempotencyKey := key

/-- An event object of a caller's list: its identity and its value. -/
structure EventObj where
  id : Nat
  event : SemanticEvent

/-- The arguments of `append`. -/
structure Call where
  events : List EventObj
  expectedVersion : Option Int := none
  idempotencyKey : Option Uuid := none

/-- A call of one event. -/
def one (etype : EventType) (payload : Dict) : Call where
  events := [⟨0, { eventType := etype, payload := payload }⟩]

structure CommitResult where
  seq : Nat
  readYourWritesToken : Nat
deriving DecidableEq

inductive AppendError where
  /-- `LedgerError("append requires at least one event")`. -/
  | emptyBatch
  /-- `LedgerError` from an `EventSchemaError`. -/
  | schema (etype : EventType) (version : Nat)
  /-- `EventVersionError`, which `append` does not catch. -/
  | version (etype : EventType)
  /-- `LedgerConflictError(f"ledger tail is {tail}, expected {expected_version}")`. -/
  | conflict (tail : Nat) (expected : Int)
  | python (e : PyError)
deriving DecidableEq

structure Db where
  events : List EventRow := []
  state : Table := fun _ => none
  /-- What `nextval` returns next; a failed transaction gives no value back. -/
  nextSeq : Nat := 1

/-! ## Look-ups -/

/-- `SELECT seq WHERE idempotency_key = key`. -/
def seqOfKey (rows : List EventRow) (key : Uuid) : Option Nat :=
  (rows.find? fun r => r.idempotencyKey == some key).map (·.seq)

/-- `SELECT max(seq)`, 0 on an empty table. -/
def tailOf (rows : List EventRow) : Nat := rows.foldr (fun r n => max r.seq n) 0

theorem le_tailOf {rows : List EventRow} {r : EventRow} (h : r ∈ rows) : r.seq ≤ tailOf rows := by
  induction rows with
  | nil => cases h
  | cons r' rows ih =>
    simp only [tailOf, List.foldr_cons]
    rcases List.mem_cons.1 h with rfl | h
    · omega
    · have := ih h
      simp only [tailOf] at this
      omega

theorem tailOf_lt {rows : List EventRow} {n : Nat} (hn : 0 < n) (h : ∀ r ∈ rows, r.seq < n) : tailOf rows < n := by
  induction rows with
  | nil => exact hn
  | cons r rows ih =>
    have h1 := h r (by simp)
    have h2 := ih fun r hr => h r (by simp [hr])
    simp only [tailOf, List.foldr_cons] at h2 ⊢
    omega

/-- The tail check of `expected_version`. -/
def checkTail (rows : List EventRow) : Option Int → Except AppendError Unit
  | none => .ok ()
  | some v => if (tailOf rows : Int) = v then .ok () else .error (.conflict (tailOf rows) v)

/-- Every event prepared, or the first failure. -/
def prepareAll : List EventObj → Except AppendError (List PreparedEvent)
  | [] => .ok []
  | ev :: evs =>
    match ev.event.prepare with
    | .error (.schema etype version) => .error (.schema etype version)
    | .error (.version etype) => .error (.version etype)
    | .ok pe => (prepareAll evs).map (pe :: ·)

/-! ## The Tier-0 delta -/

-- named, so that what looks a key up in a list rests on one proof
instance keysLawful : LawfulBEq Key := inferInstance

/-- `_row_from_state`. -/
def rowFromState (r : ScalarRow) : CurrentStateRow :=
  { CurrentStateRow.ofScalar r with locked := r.state.isStr "LOCKED" }

/-- The entities whose markers a batch loads. -/
def affectedRefs (evs : List SemanticEvent) : List String := evs.filterMap entityRefOf

/-- The target and identity rows a batch loads. -/
def affectedTargets (evs : List SemanticEvent) : List Key :=
  evs.flatMap fun ev => (changeTarget ev).toList ++ (identityEventTarget ev).toList

/-- The keys of the rows a batch loads. -/
def loadedKeys (evs : List SemanticEvent) : List Key :=
  (affectedRefs evs).map (fun ref => (ref, lockPredicate)) ++ affectedTargets evs

/-- `_load_affected_state`. -/
def loadAffectedState (t : Table) (evs : List SemanticEvent) : CurrentReducedState where
  rows := fun k => if k ∈ loadedKeys evs then (t k).map rowFromState else none
  locks := fun ref => ref ∈ affectedRefs evs && (t (ref, lockPredicate)).any fun r => r.state.isStr "LOCKED"

/-- An unlocked marker, which is not stored. -/
def isUnlockedMarker (row : CurrentStateRow) : Bool := row.predicate = lockPredicate && row.state.isStr "UNLOCKED"

/-- `_persist_delta`: every row of the state is upserted but an unlocked marker. -/
def persistDelta (t : Table) (s : CurrentReducedState) : Table := fun k =>
  match s.rows k with
  | none => t k
  | some row => if isUnlockedMarker row then t k else some row.scalar

/-- The events that fold, with the seqs they were given. -/
def semanticWithSeqs (evs : List SemanticEvent) (seqs : List Nat) : List SemanticEvent :=
  ((evs.zip seqs).filter fun p => p.1.isSemantic).map fun p => { p.1 with seq := some p.2 }

/-- The folded state `_apply_tier0` persists. -/
def foldBatch (t : Table) (evs : List SemanticEvent) (seqs : List Nat) : Except PyError CurrentReducedState :=
  reduceAll (loadAffectedState t (evs.filter (·.isSemantic))) (semanticWithSeqs evs seqs)

/-- `_apply_tier0`. -/
def applyTier0 (t : Table) (evs : List SemanticEvent) (seqs : List Nat) : Except PyError Table :=
  if (evs.filter (·.isSemantic)).isEmpty then .ok t
  else (foldBatch t evs seqs).map (persistDelta t)

/-! ## `append` -/

/-- The idempotency key an insert carries: that of the call, on the first event object. -/
def insertKey (call : Call) (ev : EventObj) : Option Uuid :=
  if call.events.head?.any (·.id = ev.id) then call.idempotencyKey else none

/-- One insert: the new row, or the seq of the row that holds its key. -/
def insertRow (db : Db) (call : Call) (ev : EventObj) (pe : PreparedEvent) : Db × Except Nat Nat :=
  match (insertKey call ev).bind (seqOfKey db.events) with
  | some existing => ({ db with nextSeq := db.nextSeq + 1 }, .error existing)
  | none =>
    ({ db with events := db.events ++ [.of pe db.nextSeq (insertKey call ev)], nextSeq := db.nextSeq + 1 },
      .ok db.nextSeq)

/-- The inserts of a batch up to the first that finds its key taken. -/
def insertAll (call : Call) : Db → List (EventObj × PreparedEvent) → Db × Except Nat (List Nat)
  | db, [] => (db, .ok [])
  | db, (ev, pe) :: rest =>
    match insertRow db call ev pe with
    | (db', .error existing) => (db', .error existing)
    | (db', .ok seq) =>
      match insertAll call db' rest with
      | (db'', .error existing) => (db'', .error existing)
      | (db'', .ok seqs) => (db'', .ok (seq :: seqs))

/-- A transaction that raises leaves the tables as they were. -/
def rollback (db db' : Db) : Db := { db with nextSeq := db'.nextSeq }

/-- `_append_all_events_on` within its transaction. -/
def append (db : Db) (call : Call) : Db × Except AppendError CommitResult :=
  if call.events.isEmpty then (db, .error .emptyBatch) else
  match call.idempotencyKey.bind (seqOfKey db.events) with
  | some existing => (db, .ok ⟨existing, existing⟩)
  | none =>
    match checkTail db.events call.expectedVersion with
    | .error e => (db, .error e)
    | .ok () =>
      match prepareAll call.events with
      | .error e => (db, .error e)
      | .ok prepared =>
        match insertAll call db (call.events.zip prepared) with
        | (db', .error existing) => (db', .ok ⟨existing, existing⟩)
        | (db', .ok seqs) =>
          match applyTier0 db'.state (call.events.map (·.event)) seqs with
          | .error e => (rollback db db', .error (.python e))
          | .ok state => ({ db' with state := state }, .ok ⟨seqs.headD 0, seqs.headD 0⟩)

/-- A call of one event under a key. -/
def keyed (ev : SemanticEvent) (key : Uuid) : Call where
  events := [⟨0, ev⟩]
  idempotencyKey := some key

/-- What appending one event under a key does: it finds the key, it raises and leaves the log, or the log grows by the
event under the key. -/
inductive AppendsOne (db : Db) (ev : SemanticEvent) (key : Uuid) : Db × Except AppendError CommitResult → Prop
  | found {n : Nat} (h : seqOfKey db.events key = some n) : AppendsOne db ev key (db, .ok ⟨n, n⟩)
  | raised {db' : Db} {e : AppendError} (kept : db'.events = db.events) : AppendsOne db ev key (db', .error e)
  | grown {db' : Db} {pe : PreparedEvent} {result : CommitResult} (free : seqOfKey db.events key = none)
      (prep : ev.prepare = .ok pe) (h : db'.events = db.events ++ [.of pe db.nextSeq (some key)]) :
      AppendsOne db ev key (db', .ok result)

theorem append_keyed (db : Db) (ev : SemanticEvent) (key : Uuid) : AppendsOne db ev key (append db (keyed ev key)) := by
  unfold append
  simp only [keyed, List.isEmpty_cons, Bool.false_eq_true, if_false, Option.bind_some]
  cases hk : seqOfKey db.events key with
  | some n => exact .found hk
  | none =>
    have hkey : insertKey (keyed ev key) ⟨0, ev⟩ = some key := by simp [insertKey, keyed]
    simp only [checkTail, prepareAll]
    cases hp : ev.prepare with
    | error e => cases e <;> exact .raised rfl
    | ok pe =>
      simp only [Except.map, List.zip_cons_cons, List.zip_nil_right, insertAll, insertRow]
      rw [show insertKey { events := [⟨0, ev⟩], idempotencyKey := some key } ⟨0, ev⟩ = some key from hkey]
      simp only [Option.bind_some, hk]
      split
      · exact .raised rfl
      · exact .grown hk hp rfl

/-- Calls one after another. -/
def appendStep (db : Db) (call : Call) : Option Db := some (append db call).1

end Umd.Ledger
