import Umd.Storage.Released
import Umd.Storage.Tidy
/-!
# Backup and restore of the ledger

`backup_postgres` reads the log, the stored rows and their checksum at three moments;
`restore_postgres` writes the log back, replays it, and compares the checksum of what it
replayed. A backup can be restored when the stored rows are the replay of the log and
the checksum has not changed between the first read and the last (`restored_iff`).
-/

namespace Umd.Recovery

open Umd.Lib Umd.Events Umd.Reducer Umd.Ledger Umd.Projections

/-- The digests of the two files and of a text, and the keys of the stored rows in the order of the checksum's SELECT. -/
structure Files where
  ledgerSha : List EventRow → String
  stateSha : Table → String
  sha256 : String → String
  ordered : Table → List Key

/-- `_FORMAT`. -/
def format : String := "umd-ledger-snapshot"

/-- `PostgresBackupManifest`, but for the number of stored rows. -/
structure Manifest where
  format : String
  version : Nat
  ledgerCount : Nat
  maxSeq : Nat
  ledgerSha256 : String
  stateSha256 : String
  currentStateChecksum : String

/-- The files of a backup. -/
structure Snapshot where
  ledger : List EventRow
  state : Table
  manifest : Manifest

structure RestoreReport where
  restoredEvents : Nat
  maxSeq : Nat
  currentStateChecksum : String
  checksumVerified : Bool

inductive RecoveryError where
  | format (found : String)
  | ledgerIntegrity
  | stateIntegrity
  | divergence (got expected : String)
  | python (e : PyError)

/-- `ORDER BY seq`. -/
def bySeq (rows : List EventRow) : List EventRow := rows.insertionSort fun r r' => r.seq ≤ r'.seq

/-- A row in the text that is digested. -/
def checksumLine (r : ScalarRow) : String :=
  "|".intercalate [r.entityRef, r.predicate, r.objectRef.getD "", if r.confidence.isNone then "" else pyStr r.confidence,
    strOrEmpty r.authority, strOrEmpty r.state, toString r.seq] ++ "\n"
where
  /-- `str(x or "")` -/
  strOrEmpty (x : Json) : String := pyStr (pyOr x (.str ""))

variable (f : Files)

/-- `tier0_checksum`. -/
def checksum (t : Table) : String := f.sha256 (String.join (((f.ordered t).filterMap t).map checksumLine))

/-- `backup_postgres`, from the databases as its three reads see them. -/
def backupPostgres (ledgerRead stateRead checksumRead : Db) : Snapshot :=
  let rows := bySeq ledgerRead.events
  { ledger := rows
    state := stateRead.state
    manifest := {
      format := format
      version := 1
      ledgerCount := rows.length
      maxSeq := (rows.getLast?.map (·.seq)).getD 0
      ledgerSha256 := f.ledgerSha rows
      stateSha256 := f.stateSha stateRead.state
      currentStateChecksum := checksum f checksumRead.state } }

/-- `_load_all_events`, replayed: every event of the log, of whatever type. -/
def replayAll (rows : List EventRow) : Except PyError CurrentReducedState := replay ((bySeq rows).map upcast)

/-- `_persist_replayed_state` on the emptied table. -/
def persistReplayedState (s : CurrentReducedState) : Table := persistDelta (fun _ => none) s

/-- `restore_postgres`: the transaction that replaces the log and the stored rows, and the check of the checksum after it. -/
def restorePostgres (target : Db) (snapshot : Snapshot) : Db × Except RecoveryError RestoreReport :=
  if snapshot.manifest.format ≠ format then (target, .error (.format snapshot.manifest.format))
  else if f.ledgerSha snapshot.ledger ≠ snapshot.manifest.ledgerSha256 then (target, .error .ledgerIntegrity)
  else if f.stateSha snapshot.state ≠ snapshot.manifest.stateSha256 then (target, .error .stateIntegrity)
  else
    match replayAll snapshot.ledger with
    | .error e => (target, .error (.python e))
    | .ok replayed =>
      let restored : Db := {
        events := snapshot.ledger
        state := persistReplayedState replayed
        nextSeq := tailOf snapshot.ledger + 1 }
      let got := checksum f restored.state
      if got ≠ snapshot.manifest.currentStateChecksum then
        (restored, .error (.divergence got snapshot.manifest.currentStateChecksum))
      else
        (restored, .ok {
          restoredEvents := snapshot.ledger.length
          maxSeq := snapshot.manifest.maxSeq
          currentStateChecksum := got
          checksumVerified := true })

variable {f}

/-- A restore that goes through, and leaves the log that the backup read and the rows of its replay. -/
def Restored (f : Files) (ledgerRead target : Db) (snapshot : Snapshot) : Prop :=
  ∃ db report, restorePostgres f target snapshot = (db, .ok report) ∧ db.events = ledgerRead.events ∧
    rebuild ledgerRead.events = .ok db.state

/-! ## The replay of a restore -/

theorem reduce_not_semantic {ev : SemanticEvent} (h : ev.isSemantic = false) (s : CurrentReducedState) : reduce s ev = .ok s := by
  have htype : ev.eventType = .JobRunAudit := by simpa [SemanticEvent.isSemantic] using h
  have hlock : isLockEvent ev.eventType = false := by rw [htype]; rfl
  have htarget : eventTarget ev = none := if_pos (by rw [htype]; decide)
  unfold reduce
  rw [hlock, htarget]
  rfl

/-- Events outside the semantic log change nothing. -/
theorem reduceAll_filter (evs : List SemanticEvent) (s : CurrentReducedState) :
    reduceAll s (evs.filter (·.isSemantic)) = reduceAll s evs := by
  induction evs generalizing s with
  | nil => rfl
  | cons ev evs ih =>
    cases h : ev.isSemantic with
    | true =>
      rw [List.filter_cons_of_pos h, reduceAll, reduceAll]
      cases reduce s ev with
      | error e => rfl
      | ok s' => exact ih s'
    | false =>
      rw [List.filter_cons_of_neg (by simp [h]), ih, reduceAll, reduce_not_semantic h]
      rfl

section Log

variable {db : Db} (h : Stored db)

include h

/-- Over a log as appends leave it, a restore replays what a rebuild does. -/
theorem replayAll_eq : (replayAll db.events).map persistReplayedState = rebuild db.events := by
  have hload : loadEvents db.events 0 = bySeq db.events := by
    unfold loadEvents bySeq
    rw [List.filter_eq_self.2 (by simpa using h.positive)]
  unfold replayAll rebuild canonicalFold replay
  rw [hload, reduceAll_filter]
  rfl

theorem bySeq_ordered : bySeq db.events = db.events := by
  have hordered := h.ordered
  rw [List.pairwise_map] at hordered
  exact (hordered.imp Nat.le_of_lt).insertionSort_eq

/-- What a restore of a backup does: it replays the log as the first read saw it, and checks what the last read saw. -/
theorem restore_backup (stateRead checksumRead target : Db) :
    restorePostgres f target (backupPostgres f db stateRead checksumRead) =
      match replayAll db.events with
      | .error e => (target, .error (.python e))
      | .ok replayed =>
        let restored : Db := { events := db.events, state := persistReplayedState replayed, nextSeq := tailOf db.events + 1 }
        let got := checksum f restored.state
        if got ≠ checksum f checksumRead.state then (restored, .error (.divergence got (checksum f checksumRead.state)))
        else (restored, .ok ⟨db.events.length, (db.events.getLast?.map (·.seq)).getD 0, got, true⟩) := by
  unfold restorePostgres backupPostgres
  rw [bySeq_ordered h]
  simp only [ne_eq, not_true_eq_false, if_false]

theorem restored_log (stateRead checksumRead target : Db) :
    Restored f db target (backupPostgres f db stateRead checksumRead) ↔
      ∃ t, rebuild db.events = .ok t ∧ checksum f t = checksum f checksumRead.state := by
  have hreplay := replayAll_eq h
  unfold Restored
  rw [restore_backup h]
  cases hfold : replayAll db.events with
  | error e =>
    rw [hfold] at hreplay
    rw [← hreplay]
    exact iff_of_false (by rintro ⟨_, _, h, -⟩; cases h) (by rintro ⟨_, h, -⟩; cases h)
  | ok replayed =>
    rw [hfold] at hreplay
    rw [← hreplay]
    dsimp only
    by_cases hsum : checksum f (persistReplayedState replayed) = checksum f checksumRead.state
    · rw [if_neg (not_not.2 hsum)]
      exact iff_of_true ⟨_, _, rfl, rfl, rfl⟩ ⟨_, rfl, hsum⟩
    · rw [if_pos hsum]
      refine iff_of_false (by rintro ⟨_, _, h, -⟩; cases h) ?_
      rintro ⟨_, h, hsum'⟩
      cases h
      exact hsum hsum'

end Log

/-! ## What can be restored -/

/-- After any appends, a backup is restored if and only if the replay of the log that its first read saw has the checksum of
the rows that its last read saw. -/
theorem restored_iff_replay {ledgerRead : Db} (h : Run appendStep Any {} ledgerRead) (stateRead checksumRead target : Db) :
    Restored f ledgerRead target (backupPostgres f ledgerRead stateRead checksumRead) ↔
      ∃ t, rebuild ledgerRead.events = .ok t ∧ checksum f t = checksum f checksumRead.state :=
  restored_log (tidy_run h).stored stateRead checksumRead target

/-- After appends that each keep the rows, what matters is that none that commits between the first read and the last
changes the checksum. -/
theorem restored_iff {ledgerRead : Db} (h : Run appendStep KeepsShown {} ledgerRead) (stateRead checksumRead target : Db) :
    Restored f ledgerRead target (backupPostgres f ledgerRead stateRead checksumRead) ↔
      checksum f ledgerRead.state = checksum f checksumRead.state := by
  rw [restored_iff_replay (h.mono fun _ _ _ => trivial), (shown_run h).rebuild]
  constructor
  · rintro ⟨t, ht, hsum⟩
    cases ht
    exact hsum
  · exact fun hsum => ⟨_, rfl, hsum⟩

/-- Digests as their texts, of rows about one entity's marker. -/
def markerFiles : Files where
  ledgerSha rows := String.join (rows.map fun r => toString r.seq)
  stateSha _ := ""
  sha256 := id
  ordered t := [("e", lockPredicate)].filter fun k => (t k).isSome

/-- A log of one lock. -/
def lockOnce : Db := (append {} (one .Locked [("entity_ref", .str "e")])).1

theorem restored_iff_lock : Restored markerFiles lockOnce {} (backupPostgres markerFiles lockOnce lockOnce lockOnce) := by
  refine (restored_iff (.step .refl ⟨⟨fun h => h.1 rfl, fun k _ r hr => (by cases hr), fun _ _ => rfl⟩, ?_⟩ rfl) lockOnce lockOnce
    {}).2 rfl
  intro ev hev ref h
  rw [List.mem_singleton.1 hev] at h
  cases h

/-- A lock that was released stays among the stored rows, and the replay has none. -/
theorem released_not_restored :
    Run appendStep Any {} lockThenUnlock ∧
      ¬ Restored markerFiles lockThenUnlock {} (backupPostgres markerFiles lockThenUnlock lockThenUnlock lockThenUnlock) := by
  refine ⟨.step (.step .refl trivial rfl) trivial rfl, ?_⟩
  rintro ⟨db, report, h, -⟩
  have herror : (restorePostgres markerFiles {} (backupPostgres markerFiles lockThenUnlock lockThenUnlock lockThenUnlock)).2.toOption.isNone
    = true := by decide +kernel
  rw [h] at herror
  cases herror

end Umd.Recovery
