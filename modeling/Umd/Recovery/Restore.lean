import Umd.Lib.JsonRead
import Umd.Lib.Python
import Umd.Lib.Utf8
import Umd.Lib.Uuid
import Umd.Projections.Search
import Umd.Recovery.PostgresBackup
/-!
# Restoring a snapshot directory

`restore_postgres` over any three files: what is checked before the transaction, the
transaction, and what is checked after its commit. Only the last check can fail with the
tables replaced, so a restore is atomic if and only if no snapshot that is read and
replayed has another checksum than its manifest (`restore_iff`).
-/

namespace Umd.Recovery

open Umd.Lib Umd.Lib.UuidValue Umd.Events Umd.Reducer Umd.Ledger Umd.Projections

variable {Time : Type}

/-- The files of a snapshot directory that are there. -/
structure SnapshotDir where
  ledger : Option (List UInt8) := none
  state : Option (List UInt8) := none
  manifest : Option (List UInt8) := none

/-- `values` of the insert of one record. -/
structure LedgerValues (Time : Type) where
  seq : Int
  eventType : Json
  eventVersion : Int
  schemaUrl : Json
  txTime : Option Time
  validTime : Option Time
  authority : Json
  confidence : Json
  generatedBy : Dict
  correlationId : Option UuidValue
  causationId : Option Int
  payload : Dict
  idempotencyKey : Option UuidValue
  createdBy : Json

/-- What a restore raises. -/
inductive RestoreError where
  /-- `missing snapshot artifact` -/
  | missing (artifact : String)
  /-- `unsupported snapshot format` -/
  | format (found : Json)
  /-- `snapshot integrity failed` -/
  | integrity (artifact : String)
  /-- `malformed JSON at line` -/
  | malformed (kind : String) (line : Nat)
  /-- `replayed current_state does not match backup` -/
  | divergence (got expected : String)
  | python (e : PyError)

/-- A row of `semantic_event`, with all its columns. -/
structure LedgerRow (Time : Type) where
  seq : Int
  eventType : String
  eventVersion : Int
  schemaUrl : Option String
  txTime : Time
  validTime : Option Time
  authority : Option String
  confidence : Option Number
  generatedBy : Dict
  correlationId : Option UuidValue
  causationId : Option Int
  payload : Dict
  idempotencyKey : Option UuidValue
  createdBy : Option String

/-- The two tables of a restore. -/
structure LedgerTables (Time : Type) where
  log : List (LedgerRow Time) := []
  state : Table := fun _ => none

/-- What the restore uses of the standard library (`int` of a text, `datetime.fromisoformat`, the digest of a file) and of
the database (what an insert makes of the log, `setval`, and whether the replayed rows fit their columns). -/
structure Host (Time : Type) where
  intText : String → Option Int
  isoTime : String → Option Time
  fileSha256 : List UInt8 → String
  insert : List (LedgerRow Time) → LedgerValues Time → Except PyError (List (LedgerRow Time))
  setval : Int → Except PyError Unit
  upsert : Table → Except PyError Unit

section

variable (host : Host Time)

/-- `int(x)` -/
def pyInt : Json → Except PyError Int
  | .num (.dec m e) => .ok (m.tdiv (10 ^ e))
  | .num _ => .error .valueError
  | .bool b => .ok (if b then 1 else 0)
  | .str s => (host.intText s).elim (.error .valueError) .ok
  | _ => .error .typeError

/-- `_parse_datetime`. -/
def parseDatetime (x : Json) : Except PyError (Option Time) :=
  if x.truthy then
    match x with
    | .str s => (host.isoTime s).elim (.error .valueError) fun time => .ok (some time)
    | _ => .error .typeError
  else .ok none

/-- `uuid.UUID(str(x)) if x else None` -/
def parseUuid (x : Json) : Except PyError (Option UuidValue) :=
  if x.truthy then (pyUuid (pyStr x)).elim (.error .valueError) fun u => .ok (some u) else .ok none

/-- `rec[k]` -/
def item (rec : Dict) (k : String) : Except PyError Json := (rec.get? k).elim (.error .keyError) .ok

/-- The values of a record's fields. -/
def dictValues (rec : Dict) : Except PyError (LedgerValues Time) := do
  let seq ← (item rec "seq").bind (pyInt host)
  let eventType ← item rec "event_type"
  let eventVersion ← (item rec "event_version").bind (pyInt host)
  let txTime ← parseDatetime host (rec.get "tx_time")
  let validTime ← parseDatetime host (rec.get "valid_time")
  let generatedBy ← pyDict (pyOr (rec.get "generated_by") (.obj []))
  let correlationId ← parseUuid (rec.get "correlation_id")
  let causationId ← if (rec.get "causation_id").isNone then .ok none else (pyInt host (rec.get "causation_id")).map some
  let payload ← pyDict (pyOr (rec.get "payload") (.obj []))
  let idempotencyKey ← parseUuid (rec.get "idempotency_key")
  .ok { seq, eventType, eventVersion, schemaUrl := rec.get "schema_url", txTime, validTime, authority := rec.get "authority",
        confidence := rec.get "confidence", generatedBy, correlationId, causationId, payload, idempotencyKey,
        createdBy := rec.get "created_by" }

/-- The values of one record, which must be an object. -/
def recordValues : Json → Except PyError (LedgerValues Time)
  | .obj rec => dictValues host rec
  | _ => .error .typeError

/-- The inserts, one after the other. -/
def insertRecords (log : List (LedgerRow Time)) : List Json → Except PyError (List (LedgerRow Time))
  | [] => .ok log
  | rec :: records => do
    let values ← recordValues host rec
    let log ← host.insert log values
    insertRecords log records

/-- The advance of the sequence, where there are records. -/
def advance (records : List Json) : Except PyError Unit := do
  let seqs ← records.mapM fun rec =>
    match rec with
    | .obj rec => (item rec "seq").bind (pyInt host)
    | _ => .error .typeError
  match seqs with
  | [] => .ok ()
  | seq :: seqs => host.setval (seqs.foldl max seq)

end

/-- The event types that a schema is retained for. -/
def namedTypes : List EventType :=
  [.SourceIngested, .SourceAliased, .FormatAnalyzed, .SegmentCreated, .StageCompleted, .JobRunAudit, .EntityMentioned,
   .EntityResolved, .ReferenceRebound, .Aligned, .SemanticAsserted, .ContradictionRecorded, .OverrideApplied,
   .CorrectionApplied, .Locked, .Unlocked, .Invalidated, .LocatorRebased, .HallucinationFiltered]

/-- The event type of a text. -/
def eventTypeOf (name : String) : EventType := (namedTypes.find? (·.name = name)).getD (.other name)

/-- A row whose numbers are from zero on, as the ledger has it. -/
def LedgerRow.eventRow (r : LedgerRow Time) : Option EventRow :=
  if 0 ≤ r.seq ∧ 0 ≤ r.eventVersion ∧ ∀ n ∈ r.causationId, 0 ≤ n then
    some {
      seq := r.seq.toNat
      eventType := eventTypeOf r.eventType
      eventVersion := r.eventVersion.toNat
      schemaUrl := r.schemaUrl.getD ""
      payload := r.payload
      authority := r.authority
      confidence := r.confidence
      generatedBy := r.generatedBy
      correlationId := r.correlationId.map UuidValue.dashed
      causationId := r.causationId.map Int.toNat
      createdBy := r.createdBy
      idempotencyKey := r.idempotencyKey.map UuidValue.dashed }
  else none

/-- `_load_all_events`, the replay, and what it writes to the emptied table; `below` is what the reducer makes of a log with
numbers below zero. -/
def replayLog (below : List (LedgerRow Time) → Except PyError Table) (log : List (LedgerRow Time)) : Except PyError Table :=
  match log.mapM LedgerRow.eventRow with
  | some rows => (replayAll rows).map persistReplayedState
  | none => below log

section

variable (f : Files) (host : Host Time) (below : List (LedgerRow Time) → Except PyError Table)

/-- What is done in the transaction. -/
def restoreTransaction (records : List Json) : Except PyError (LedgerTables Time) := do
  let log ← insertRecords host [] records
  advance host records
  let state ← replayLog below log
  host.upsert state
  .ok { log, state }

/-- `\r\n` and `\r` as `\n`. -/
def universalNewlines : List Char → List Char
  | '\r' :: '\n' :: cs => '\n' :: universalNewlines cs
  | '\r' :: cs => '\n' :: universalNewlines cs
  | c :: cs => c :: universalNewlines cs
  | [] => []

/-- The text of a file. -/
def readText (bytes : List UInt8) : Except PyError String := (String.fromUTF8? bytes.toByteArray).elim (.error .valueError) .ok

/-- The values of the lines, from a line number on. -/
def readLines (kind : String) (lineno : Nat) : List String → Except RestoreError (List Json)
  | [] => .ok []
  | line :: lines =>
    if strip line = "" then readLines kind (lineno + 1) lines
    else
      match loads (strip line) with
      | some rec => (readLines kind (lineno + 1) lines).map (rec :: ·)
      | none => .error (.malformed kind lineno)

/-- `_read_records`. -/
def readRecords (bytes : List UInt8) (kind : String) : Except RestoreError (List Json) :=
  match readText bytes with
  | .ok text => readLines kind 1 (((universalNewlines text.toList).splitOn '\n').map String.ofList)
  | .error e => .error (.python e)

/-- The manifest, as far as it has fields. -/
def readManifest (bytes : List UInt8) : Except RestoreError Dict :=
  match readText bytes with
  | .error e => .error (.python e)
  | .ok text =>
    match loads text with
    | none => .error (.python .valueError)
    | some (.obj manifest) => .ok manifest
    | some _ => .error (.python .attributeError)

/-- One check of the manifest. -/
def require (holds : Bool) (e : RestoreError) : Except RestoreError Unit := if holds then .ok () else .error e

theorem require_ok {holds : Bool} {e : RestoreError} {u : Unit} : require holds e = .ok u ↔ holds = true := by
  cases holds <;> simp [require]

/-- What comes before the transaction: the manifest and the records of the ledger. -/
def readSnapshot (dir : SnapshotDir) : Except RestoreError (Dict × List Json) :=
  match dir.ledger, dir.state, dir.manifest with
  | none, _, _ => .error (.missing "ledger.jsonl")
  | _, none, _ => .error (.missing "current_state.jsonl")
  | _, _, none => .error (.missing "manifest.json")
  | some ledger, some state, some manifest => do
    let manifest ← readManifest manifest
    require ((manifest.get "format").isStr format) (.format (manifest.get "format"))
    require ((manifest.get "ledger_sha256").isStr (host.fileSha256 ledger)) (.integrity "ledger")
    require ((manifest.get "state_sha256").isStr (host.fileSha256 state)) (.integrity "current_state")
    let records ← readRecords ledger "ledger"
    let _ ← readRecords state "current_state"
    return (manifest, records)

/-- The outcome of a restore that verifies its checksum. -/
structure RestoreOutcome where
  restoredEvents : Nat
  maxSeq : Json
  currentStateChecksum : String
  checksumVerified : Bool

/-- `restore_postgres`, over the files of its directory. -/
def restoreSnapshot (tables : LedgerTables Time) (dir : SnapshotDir) : LedgerTables Time × Except RestoreError RestoreOutcome :=
  match readSnapshot host dir with
  | .error e => (tables, .error e)
  | .ok (manifest, records) =>
    match restoreTransaction host below records with
    | .error e => (tables, .error (.python e))
    | .ok restored =>
      let got := checksum f restored.state
      match manifest.get? "current_state_checksum" with
      | none => (restored, .error (.python .keyError))
      | some expected =>
        if got ≠ pyStr expected then (restored, .error (.divergence got (pyStr expected)))
        else (restored, .ok {
          restoredEvents := records.length
          maxSeq := (manifest.get? "max_seq").getD (.num (.dec 0 0))
          currentStateChecksum := got
          checksumVerified := true })

/-- The files are there, what the manifest says of them is right, and their lines are read. -/
structure Read (dir : SnapshotDir) (manifest : Dict) (records : List Json) : Prop where
  intact : ∃ ledger state bytes, dir.ledger = some ledger ∧ dir.state = some state ∧ dir.manifest = some bytes ∧
    readManifest bytes = .ok manifest ∧ (manifest.get "ledger_sha256").isStr (host.fileSha256 ledger) = true ∧
    (manifest.get "state_sha256").isStr (host.fileSha256 state) = true ∧ readRecords ledger "ledger" = .ok records ∧
    ∃ rows, readRecords state "current_state" = .ok rows
  format : (manifest.get "format").isStr format = true

/-- The records are inserted, and their replay is written. -/
structure Replayed (records : List Json) (restored : LedgerTables Time) : Prop where
  inserted : insertRecords host [] records = .ok restored.log
  advanced : advance host records = .ok ()
  replayed : replayLog below restored.log = .ok restored.state
  written : host.upsert restored.state = .ok ()

/-- The manifest has the checksum of these rows. -/
def Vouched (manifest : Dict) (state : Table) : Prop :=
  ∃ expected, manifest.get? "current_state_checksum" = some expected ∧ pyStr expected = checksum f state

/-- Two logs of the same rows, and the same current state. -/
def SameTables (tables tables' : LedgerTables Time) : Prop := (∀ r, r ∈ tables.log ↔ r ∈ tables'.log) ∧ tables.state = tables'.state

/-- A restore returns a report that is verified, or raises and leaves the tables as they were. -/
def Atomic (tables : LedgerTables Time) (dir : SnapshotDir) : Prop :=
  match restoreSnapshot f host below tables dir with
  | (tables', .ok report) => (∃ manifest records, Read host dir manifest records ∧ Replayed host below records tables' ∧
      Vouched f manifest tables'.state) ∧ report.checksumVerified = true ∧ report.currentStateChecksum = checksum f tables'.state
  | (tables', .error _) => SameTables tables tables'

end

variable {f : Files} {host : Host Time} {below : List (LedgerRow Time) → Except PyError Table}

theorem readSnapshot_iff {dir : SnapshotDir} {manifest : Dict} {records : List Json} :
    readSnapshot host dir = .ok (manifest, records) ↔ Read host dir manifest records := by
  constructor
  · intro h
    unfold readSnapshot at h
    split at h
    · cases h
    · cases h
    · cases h
    · rename_i ledger state bytes hledger hstate hbytes
      obtain ⟨manifest', hmanifest, h⟩ := bind_ok h
      obtain ⟨_, hformat, h⟩ := bind_ok h
      obtain ⟨_, hsha, h⟩ := bind_ok h
      obtain ⟨_, hsha', h⟩ := bind_ok h
      obtain ⟨records', hrecords, h⟩ := bind_ok h
      obtain ⟨rows, hrows, h⟩ := bind_ok h
      cases h
      exact ⟨⟨ledger, state, bytes, hledger, hstate, hbytes, hmanifest, require_ok.1 hsha, require_ok.1 hsha', hrecords, rows, hrows⟩,
        require_ok.1 hformat⟩
  · rintro ⟨⟨ledger, state, bytes, hledger, hstate, hbytes, hmanifest, hsha, hsha', hrecords, rows, hrows⟩, hformat⟩
    unfold readSnapshot
    rw [hledger, hstate, hbytes]
    dsimp only
    rw [hmanifest]
    simp only [require, hformat, hsha, hsha', hrecords, hrows, bind, Except.bind, if_true, pure, Except.pure]

theorem restoreTransaction_iff {records : List Json} {restored : LedgerTables Time} :
    restoreTransaction host below records = .ok restored ↔ Replayed host below records restored := by
  constructor
  · intro h
    obtain ⟨log, hlog, h⟩ := bind_ok h
    obtain ⟨_, hadvance, h⟩ := bind_ok h
    obtain ⟨state, hstate, h⟩ := bind_ok h
    obtain ⟨_, hwrite, h⟩ := bind_ok h
    cases h
    exact ⟨hlog, hadvance, hstate, hwrite⟩
  · rintro ⟨hlog, hadvance, hstate, hwrite⟩
    unfold restoreTransaction
    rw [hlog]
    dsimp only [bind, Except.bind]
    rw [hadvance]
    dsimp only
    rw [hstate]
    dsimp only
    rw [hwrite]

/-- The last check, on what the transaction has committed. -/
theorem restoreSnapshot_committed {tables restored : LedgerTables Time} {dir : SnapshotDir} {manifest : Dict} {records : List Json}
    (hread : Read host dir manifest records) (hreplayed : Replayed host below records restored) :
    (Vouched f manifest restored.state → ∃ report, restoreSnapshot f host below tables dir = (restored, .ok report) ∧
      report.checksumVerified = true ∧ report.currentStateChecksum = checksum f restored.state) ∧
    (¬ Vouched f manifest restored.state → ∃ e, restoreSnapshot f host below tables dir = (restored, .error e)) := by
  unfold restoreSnapshot
  rw [readSnapshot_iff.2 hread]
  dsimp only
  rw [restoreTransaction_iff.2 hreplayed]
  dsimp only
  unfold Vouched
  cases hexpected : manifest.get? "current_state_checksum" with
  | none => exact ⟨nofun, fun _ => ⟨_, rfl⟩⟩
  | some expected =>
    dsimp only
    by_cases hsum : checksum f restored.state = pyStr expected
    · rw [if_neg (not_not.2 hsum)]
      exact ⟨fun _ => ⟨_, rfl, rfl, rfl⟩, fun h => absurd ⟨expected, rfl, hsum.symm⟩ h⟩
    · rw [if_pos hsum]
      refine ⟨?_, fun _ => ⟨_, rfl⟩⟩
      rintro ⟨_, h, hsum'⟩
      cases h
      exact absurd hsum'.symm hsum

/-- Before the commit every failure leaves the tables. -/
theorem restoreSnapshot_uncommitted {tables : LedgerTables Time} {dir : SnapshotDir}
    (h : ∀ manifest records restored, Read host dir manifest records → ¬ Replayed host below records restored) :
    ∃ e, restoreSnapshot f host below tables dir = (tables, .error e) := by
  unfold restoreSnapshot
  cases hread : readSnapshot host dir with
  | error e => exact ⟨e, rfl⟩
  | ok p =>
    obtain ⟨manifest, records⟩ := p
    dsimp only
    cases hrun : restoreTransaction host below records with
    | error e => exact ⟨_, rfl⟩
    | ok restored => exact absurd (restoreTransaction_iff.1 hrun) (h manifest records restored (readSnapshot_iff.1 hread))

/-- **A restore is atomic if and only if no snapshot that is read and replayed is without the checksum of its rows, unless
they are the rows that were there.** -/
theorem restore_iff (f : Files) (host : Host Time) (below : List (LedgerRow Time) → Except PyError Table) (tables : LedgerTables Time)
    (dir : SnapshotDir) : Atomic f host below tables dir ↔
      ∀ manifest records restored, Read host dir manifest records → Replayed host below records restored →
        Vouched f manifest restored.state ∨ SameTables tables restored := by
  by_cases hcommit : ∃ manifest records restored, Read host dir manifest records ∧ Replayed host below records restored
  · obtain ⟨manifest, records, restored, hread, hreplayed⟩ := hcommit
    have hone : ∀ manifest' records' restored', Read host dir manifest' records' → Replayed host below records' restored' →
        manifest' = manifest ∧ restored' = restored := by
      intro manifest' records' restored' hread' hreplayed'
      have hp := (readSnapshot_iff.2 hread').symm.trans (readSnapshot_iff.2 hread)
      cases hp
      have hr := (restoreTransaction_iff.2 hreplayed').symm.trans (restoreTransaction_iff.2 hreplayed)
      cases hr
      exact ⟨rfl, rfl⟩
    obtain ⟨hvouched, hnot⟩ := @restoreSnapshot_committed _ f _ _ tables _ _ _ _ hread hreplayed
    unfold Atomic
    by_cases hv : Vouched f manifest restored.state
    · obtain ⟨report, hcall, hverified, hsum⟩ := hvouched hv
      rw [hcall]
      refine iff_of_true ⟨⟨manifest, records, hread, hreplayed, hv⟩, hverified, hsum⟩ fun _ _ _ hread' hreplayed' => ?_
      obtain ⟨rfl, rfl⟩ := hone _ _ _ hread' hreplayed'
      exact .inl hv
    · obtain ⟨e, hcall⟩ := hnot hv
      rw [hcall]
      constructor
      · intro hsame _ _ _ hread' hreplayed'
        obtain ⟨-, rfl⟩ := hone _ _ _ hread' hreplayed'
        exact .inr hsame
      · intro h
        exact (h _ _ _ hread hreplayed).resolve_left hv
  · have hnone : ∀ manifest records restored, Read host dir manifest records → ¬ Replayed host below records restored :=
      fun manifest records restored hread hreplayed => hcommit ⟨manifest, records, restored, hread, hreplayed⟩
    obtain ⟨e, hcall⟩ := @restoreSnapshot_uncommitted _ f _ _ tables _ hnone
    unfold Atomic
    rw [hcall]
    exact iff_of_true ⟨fun _ => Iff.rfl, rfl⟩ fun manifest records restored hread hreplayed =>
      absurd hreplayed (hnone manifest records restored hread)

/-! ## A manifest with another checksum -/

theorem readText_encode (cs : List Char) : readText (Utf8.encode cs) = .ok (String.ofList cs) := by
  have hbytes : (Utf8.encode cs).toByteArray = (String.ofList cs).toByteArray := by
    rw [← String.utf8Encode_toList, String.toList_ofList]
    rfl
  unfold readText String.fromUTF8?
  rw [hbytes, dif_pos (String.ofList cs).isValidUTF8]
  rfl

/-- A manifest that was written is read back, its fields by their keys. -/
theorem readManifest_dumps (d : Dict) :
    readManifest (Utf8.encode (dumps (.obj d)).toList) = .ok (Dict.update [] (sortFields (Json.normFields d))) := by
  unfold readManifest
  rw [readText_encode, String.ofList_toList]
  dsimp only
  rw [loads_dumps]
  rfl

/-- The digest of nothing. -/
def emptyDigest : String := "e3b0c44298fc1c149afbf4c8996fb92427ae41e4649b934ca495991b7852b855"

/-- The manifest of an empty ledger, with a checksum that no digest is. -/
def damagedManifest : String :=
  dumps (.obj [("current_state_checksum", .str "0"), ("format", .str format), ("ledger_sha256", .str emptyDigest),
    ("state_sha256", .str emptyDigest)])

/-- The backup of an empty ledger, its manifest damaged. -/
def damagedDir : SnapshotDir := { ledger := some [], state := some [], manifest := some (Utf8.encode damagedManifest.toList) }

/-- The digests of nothing, and a database that refuses a sequence below one. -/
def emptyHost : Host String where
  intText _ := none
  isoTime s := some s
  fileSha256 bs := if bs = [] then emptyDigest else ""
  insert _ _ := .error .valueError
  setval n := if 1 ≤ n then .ok () else .error .valueError
  upsert _ := .ok ()

def emptyFiles : Files where
  ledgerSha _ := ""
  stateSha _ := ""
  sha256 s := if s = "" then emptyDigest else s
  ordered _ := []

/-- A ledger of one lock. -/
def lockedTables : LedgerTables String where
  log := [{ seq := 1, eventType := "Locked", eventVersion := 1, schemaUrl := none, txTime := "2024-01-01T00:00:00+00:00",
            validTime := none, authority := none, confidence := none, generatedBy := [], correlationId := none, causationId := none,
            payload := [("entity_ref", .str "e")], idempotencyKey := none, createdBy := none }]

/-- A restore that raises and has lost a row of the ledger is not atomic. -/
theorem not_atomic {tables tables' : LedgerTables Time} {dir : SnapshotDir} {e : RestoreError} {r : LedgerRow Time}
    (hcall : restoreSnapshot f host below tables dir = (tables', .error e)) (hr : r ∈ tables.log) (hlost : r ∉ tables'.log) :
    ¬ Atomic f host below tables dir := by
  unfold Atomic
  rw [hcall]
  rintro ⟨hlog, -⟩
  exact hlost ((hlog r).1 hr)

/-- The restore raises with the ledger emptied. -/
theorem damaged_empties : ¬ Atomic emptyFiles emptyHost (fun _ => .error .valueError) lockedTables damagedDir := by
  have hmanifest : ∃ manifest, readManifest (Utf8.encode damagedManifest.toList) = .ok manifest ∧
      (manifest.get "format").isStr format = true ∧ (manifest.get "ledger_sha256").isStr emptyDigest = true ∧
      (manifest.get "state_sha256").isStr emptyDigest = true ∧ manifest.get? "current_state_checksum" = some (.str "0") := by
    exact ⟨_, readManifest_dumps _, by decide +kernel, by decide +kernel, by decide +kernel, rfl⟩
  obtain ⟨manifest, hread, hformat, hsha, hsha', hsum⟩ := hmanifest
  have hempty : ∀ kind, readRecords [] kind = .ok [] := by
    intro kind
    unfold readRecords
    rw [show readText [] = .ok "" from readText_encode []]
    rfl
  have hdir : Read emptyHost damagedDir manifest [] :=
    ⟨⟨[], [], _, rfl, rfl, rfl, hread, hsha, hsha', hempty _, [], hempty _⟩, hformat⟩
  have hreplayed : Replayed emptyHost (fun _ => .error .valueError) [] { log := [], state := persistReplayedState {} } :=
    ⟨rfl, rfl, rfl, rfl⟩
  have hdamaged : ¬ Vouched emptyFiles manifest (persistReplayedState {}) := by
    rintro ⟨expected, hexpected, hsame⟩
    rw [hsum] at hexpected
    cases hexpected
    revert hsame
    decide +kernel
  obtain ⟨e, hcall⟩ := (@restoreSnapshot_committed _ emptyFiles _ _ lockedTables _ _ _ _ hdir hreplayed).2 hdamaged
  exact not_atomic hcall (List.mem_singleton_self _) List.not_mem_nil

end Umd.Recovery
