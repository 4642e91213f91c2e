import Umd.Jobs.Completion
import Umd.Projections.EntityQuery
import Umd.Storage.ExpectedVersion
import Umd.Storage.ImmutableStore
/-!
# Uploads

`_submit_source`: bytes are stored, the source is looked up by their digest or inserted, its
ingestion is recorded and its job is created, each step in a transaction of its own. In any
interleaving of uploads, however far each has come, no step shows without the one before it,
and uploads are answered with one source if and only if their bytes have one digest
(`uploads_settled`).
-/

namespace Umd.Sources

open Umd.Lib Umd.Events Umd.Reducer Umd.Ledger Umd.Jobs Umd.SourceStore

/-- A row of `source`. -/
structure SourceRow where
  id : UuidValue
  ocflRef : String
  sha512 : String
  sizeBytes : Nat
  mediaKind : String
  originalName : Option String
  workId : Option UuidValue

/-- A row of `job`, as far as the upload gives it. -/
structure JobRow where
  id : String
  sourceId : UuidValue

/-- The arguments of `_submit_source`, and the work it draws where it needs one. -/
structure Upload where
  content : List UInt8
  mediaKind : String := "txt"
  originalName : Option String := none
  workId : Option String := none
  /-- As the client spells it, or the digits of a draw. -/
  sourceId : String
  key : String := ""
  drawnWork : UuidValue

structure SourceDescriptorResponse where
  sourceId : String
  workId : Option String
  ocflRef : String
  sha512 : String
  sizeBytes : Nat
  mediaKind : String
  originalName : Option String
  seq : Nat

/-- Where an upload is. -/
inductive Phase
  | received
  | stored (manifest : SourceManifest)
  /-- No source has the digest. -/
  | unknown (manifest : SourceManifest)
  | worked (manifest : SourceManifest) (workId : String)
  | known (manifest : SourceManifest) (sourceId : String) (workId : Option String)
  | recorded (manifest : SourceManifest) (sourceId : String) (workId : Option String) (commit : CommitResult)
  | returned (response : SourceDescriptorResponse)
  | raised

/-- The tables and the uploads. `spelled` is how the source of a row was spelled when it was inserted. -/
structure State where
  archive : Session := ⟨⟨[], 1024 * 1024, 1024 * 1024⟩, []⟩
  works : List UuidValue := []
  sources : List SourceRow := []
  db : Db := {}
  jobs : List JobRow := []
  phase : Nat → Phase := fun _ => .received
  spelled : UuidValue → Option String := fun _ => none

/-- What comes of the submission of a job. -/
inductive Dispatch
  | refused
  /-- It raises when the row of the job is there. -/
  | failed
  | accepted

inductive Act
  | upload (i : Nat) (dispatch : Dispatch)
  /-- Another writer of the ledger. -/
  | append (call : Call)

/-! ## What an upload does -/

/-- `original_name or f"{source_id}.txt"` -/
def Upload.title (u : Upload) : String :=
  match u.originalName with
  | some name => if name = "" then u.sourceId ++ ".txt" else name
  | none => u.sourceId ++ ".txt"

def Upload.descriptor (u : Upload) : SourceDescriptor where
  logicalName := u.title
  kind := .source

/-- At most so many reads of a stream in memory. -/
def readsWith : Nat → List UInt8 → List (List UInt8)
  | 0, _ => []
  | n + 1, content => if content = [] then [] else content.take 65536 :: readsWith n (content.drop 65536)

/-- The reads of a stream in memory. -/
def reads (content : List UInt8) : List (List UInt8) := readsWith content.length content

/-- `uuid.uuid5(uuid.NAMESPACE_URL, f"ingest:{source_id}")`, by its name. -/
def ingestKey (sourceId : String) : Uuid := "ingest:" ++ sourceId

def jobId (sourceId : String) : String := "job-" ++ String.ofList (sourceId.toList.take 12)

/-- `record_source_ingested` -/
def ingested (u : Upload) (manifest : SourceManifest) (sourceId : String) (workId : Option String) : SemanticEvent where
  eventType := .SourceIngested
  payload := [("source_id", .str sourceId), ("sha512", .str manifest.sha512), ("ocfl_ref", .str manifest.objectId),
    ("size_bytes", .num (.dec manifest.sizeBytes 0)), ("media_kind", .str u.mediaKind), ("work_id", .ofStr? workId),
    ("original_name", .ofStr? u.originalName)]
  createdBy := some u.key

section

variable (sha512 : List UInt8 → String) (writes : String → StoredObject → Bool) (maxUpload maxStored : Nat) (uploads : Nat → Upload)

/-- The bound on the upload, and `put_immutable`. -/
def State.put (s : State) (i : Nat) (u : Upload) : State :=
  if u.content ≠ [] ∧ maxUpload ≠ 0 ∧ maxUpload < u.content.length then { s with phase := upd s.phase i .raised }
  else
    match s.archive.store.putImmutable sha512 maxStored writes u.descriptor (reads u.content) with
    | (_, .error _) => { s with phase := upd s.phase i .raised }
    | (store, .ok manifest) =>
      { s with
        archive := ⟨store, s.archive.accepted ++ [⟨u.descriptor, streamed (reads u.content), manifest⟩]⟩
        phase := upd s.phase i (.stored manifest) }

/-- `find_source_by_sha512` -/
def State.look (s : State) (i : Nat) (u : Upload) (manifest : SourceManifest) : State :=
  match s.sources.find? fun row => row.sha512 = manifest.sha512 with
  | some row => { s with phase := upd s.phase i (.known manifest row.id.hex (u.workId.or (row.workId.map UuidValue.hex))) }
  | none => { s with phase := upd s.phase i (.unknown manifest) }

/-- `ensure_work`, where no work is given. -/
def State.ensureWork (s : State) (i : Nat) (u : Upload) (manifest : SourceManifest) : State :=
  match u.workId with
  | some workId => { s with phase := upd s.phase i (.worked manifest workId) }
  | none =>
    if s.works.any (· = u.drawnWork) then { s with phase := upd s.phase i .raised }
    else { s with works := s.works ++ [u.drawnWork], phase := upd s.phase i (.worked manifest u.drawnWork.hex) }

/-- No row has the id, the digest or the ref, and the work is there. -/
def State.admits (s : State) (row : SourceRow) : Bool :=
  s.sources.all (fun r => r.id ≠ row.id ∧ r.sha512 ≠ row.sha512 ∧ r.ocflRef ≠ row.ocflRef) &&
    row.workId.all fun work => s.works.any (· = work)

/-- The row of an upload, if its ids are UUIDs. -/
def sourceRow (u : Upload) (manifest : SourceManifest) (workId : String) : Option SourceRow := do
  return {
    id := ← pgUuid u.sourceId, ocflRef := manifest.objectId, sha512 := manifest.sha512, sizeBytes := manifest.sizeBytes
    mediaKind := u.mediaKind, originalName := u.originalName, workId := some (← pgUuid workId) }

/-- `ensure_source` -/
def State.ensureSource (s : State) (i : Nat) (u : Upload) (manifest : SourceManifest) (workId : String) : State :=
  match sourceRow u manifest workId with
  | none => { s with phase := upd s.phase i .raised }
  | some row =>
    if s.admits row then
      { s with
        sources := s.sources ++ [row], spelled := Function.update s.spelled row.id (some u.sourceId)
        phase := upd s.phase i (.known manifest u.sourceId (some workId)) }
    else { s with phase := upd s.phase i .raised }

def State.record (s : State) (i : Nat) (u : Upload) (manifest : SourceManifest) (sourceId : String) (workId : Option String) : State :=
  match Ledger.append s.db (keyed (ingested u manifest sourceId workId) (ingestKey sourceId)) with
  | (db, .error _) => { s with db := db, phase := upd s.phase i .raised }
  | (db, .ok commit) => { s with db := db, phase := upd s.phase i (.recorded manifest sourceId workId commit) }

def response (u : Upload) (manifest : SourceManifest) (sourceId : String) (workId : Option String) (commit : CommitResult) :
    SourceDescriptorResponse where
  sourceId := if Query.dashedUuid sourceId = "" then sourceId else Query.dashedUuid sourceId
  workId := workId.map Query.dashedUuid
  ocflRef := manifest.objectId
  sha512 := manifest.sha512
  sizeBytes := manifest.sizeBytes
  mediaKind := u.mediaKind
  originalName := u.originalName
  seq := commit.seq

/-- The row of a job is created once. -/
def createJob (jobs : List JobRow) (sourceId : String) : List JobRow :=
  match pgUuid sourceId with
  | none => jobs
  | some id => if jobs.any (·.id = jobId sourceId) then jobs else jobs ++ [⟨jobId sourceId, id⟩]

/-- `_dispatch` and the answer. -/
def State.dispatch (s : State) (i : Nat) (u : Upload) (manifest : SourceManifest) (sourceId : String) (workId : Option String)
    (commit : CommitResult) : Dispatch → State
  | .refused => { s with phase := upd s.phase i .raised }
  | .failed => { s with jobs := createJob s.jobs sourceId, phase := upd s.phase i .raised }
  | .accepted =>
    { s with
      jobs := createJob s.jobs sourceId
      phase := upd s.phase i (.returned (response u manifest sourceId workId commit)) }

/-- One step of an upload, or an append of another writer. -/
def State.step (s : State) : Act → Option State
  | .append call => some { s with db := (Ledger.append s.db call).1 }
  | .upload i dispatch =>
    match s.phase i with
    | .received => some (s.put sha512 writes maxUpload maxStored i (uploads i))
    | .stored manifest => some (s.look i (uploads i) manifest)
    | .unknown manifest => some (s.ensureWork i (uploads i) manifest)
    | .worked manifest workId => some (s.ensureSource i (uploads i) manifest workId)
    | .known manifest sourceId workId => some (s.record i (uploads i) manifest sourceId workId)
    | .recorded manifest sourceId workId commit => some (s.dispatch i (uploads i) manifest sourceId workId commit dispatch)
    | .returned _ => none
    | .raised => none

end

/-- Other writers use keys of their own. -/
def OtherKeys (_ : State) : Act → Prop
  | .append call => ∀ sourceId, call.idempotencyKey ≠ some (ingestKey sourceId)
  | .upload _ _ => True

/-! ## What every interleaving keeps -/

/-- The event records the source of the row under that spelling. -/
structure Records (event : EventRow) (row : SourceRow) (sourceId : String) : Prop where
  key : event.idempotencyKey = some (ingestKey sourceId)
  type : event.eventType = .SourceIngested
  source : event.payload.get? "source_id" = some (.str sourceId)
  digest : event.payload.get? "sha512" = some (.str row.sha512)
  ref : event.payload.get? "ocfl_ref" = some (.str row.ocflRef)

/-- The text is how the source of the row was spelled, or its digits. -/
def State.Spells (s : State) (row : SourceRow) (sourceId : String) : Prop := sourceId = row.id.hex ∨ s.spelled row.id = some sourceId

/-- Bytes were stored under that ref with that digest. -/
def Archived (archive : Session) (ref digest : String) : Prop :=
  ∃ w ∈ archive.accepted, w.manifest.objectId = ref ∧ w.manifest.sha512 = digest

/-- The bytes of the row are stored, and its spellings read as its id. -/
structure RowOk (s : State) (row : SourceRow) : Prop where
  ref : row.ocflRef = objectId .source row.sha512
  archived : Archived s.archive row.ocflRef row.sha512
  spelled : ∃ sourceId, s.spelled row.id = some sourceId ∧ pgUuid sourceId = some row.id

/-- No table says more than the one before it. -/
structure Tables (sha512 : List UInt8 → String) (s : State) : Prop where
  kept : Kept sha512 s.archive
  ids : (s.sources.map (·.id)).Nodup
  digests : (s.sources.map (·.sha512)).Nodup
  rows : ∀ row ∈ s.sources, RowOk s row
  recorded : ∀ event ∈ s.db.events, ∀ sourceId, event.idempotencyKey = some (ingestKey sourceId) →
    ∃ row ∈ s.sources, s.Spells row sourceId ∧ Records event row sourceId
  once : ∀ sourceId, (withKey s.db.events (ingestKey sourceId)).length ≤ 1
  jobs : ∀ job ∈ s.jobs, ∃ sourceId, pgUuid sourceId = some job.sourceId ∧ job.id = jobId sourceId ∧
    ∃ event ∈ s.db.events, event.idempotencyKey = some (ingestKey sourceId)

/-- The answer is about the source of the bytes. -/
structure Answers (sha512 : List UInt8 → String) (s : State) (u : Upload) (r : SourceDescriptorResponse) : Prop where
  bytes : r.sha512 = sha512 u.content
  source : ∃ row ∈ s.sources, row.sha512 = r.sha512 ∧ row.ocflRef = r.ocflRef ∧ r.sourceId = row.id.dashed ∧
    ∃ sourceId, s.Spells row sourceId ∧ seqOfKey s.db.events (ingestKey sourceId) = some r.seq ∧
      ∃ job ∈ s.jobs, job.id = jobId sourceId

/-- The manifest is about the bytes, and they are stored. -/
def Manifests (sha512 : List UInt8 → String) (s : State) (u : Upload) (manifest : SourceManifest) : Prop :=
  manifest = manifestOf sha512 u.descriptor u.content ∧ Archived s.archive manifest.objectId manifest.sha512

/-- What holds of an upload where it is. -/
def PhaseOk (sha512 : List UInt8 → String) (s : State) (u : Upload) : Phase → Prop
  | .received => True
  | .stored manifest => Manifests sha512 s u manifest
  | .unknown manifest => Manifests sha512 s u manifest
  | .worked manifest _ => Manifests sha512 s u manifest
  | .known manifest sourceId _ => Manifests sha512 s u manifest ∧ ∃ row ∈ s.sources, row.sha512 = manifest.sha512 ∧ s.Spells row sourceId
  | .recorded manifest sourceId _ commit => (Manifests sha512 s u manifest ∧ ∃ row ∈ s.sources, row.sha512 = manifest.sha512 ∧
      s.Spells row sourceId) ∧ seqOfKey s.db.events (ingestKey sourceId) = some commit.seq
  | .returned r => Answers sha512 s u r
  | .raised => True

structure Inv (sha512 : List UInt8 → String) (uploads : Nat → Upload) (s : State) : Prop where
  tables : Tables sha512 s
  phases : ∀ i, PhaseOk sha512 s (uploads i) (s.phase i)

/-- Nothing is taken back. -/
structure Grows (s s' : State) : Prop where
  accepted : s.archive.accepted ⊆ s'.archive.accepted
  sources : s.sources ⊆ s'.sources
  spelled : ∀ row ∈ s.sources, s'.spelled row.id = s.spelled row.id
  events : ∃ new, s'.db.events = s.db.events ++ new
  jobs : s.jobs ⊆ s'.jobs

variable {sha512 : List UInt8 → String} {writes : String → StoredObject → Bool} {maxUpload maxStored : Nat} {uploads : Nat → Upload}
  {s s' : State} {u : Upload}

theorem Grows.spells (h : Grows s s') {row : SourceRow} (hrow : row ∈ s.sources) {sourceId : String} (hs : s.Spells row sourceId) :
    s'.Spells row sourceId := by
  rcases hs with hs | hs
  · exact .inl hs
  · exact .inr (by rw [h.spelled row hrow, hs])

theorem Grows.rowOk (h : Grows s s') {row : SourceRow} (hrow : row ∈ s.sources) (hok : RowOk s row) : RowOk s' row := by
  obtain ⟨href, ⟨w, hw, hstored⟩, sourceId, hs, hid⟩ := hok
  exact ⟨href, ⟨w, h.accepted hw, hstored⟩, sourceId, (h.spelled row hrow).trans hs, hid⟩

/-- Whatever spells the source reads as its id. -/
theorem RowOk.reads {row : SourceRow} (h : RowOk s row) {sourceId : String} (hs : s.Spells row sourceId) : pgUuid sourceId = some row.id := by
  obtain ⟨-, -, spelling, hspelled, hid⟩ := h
  rcases hs with rfl | hs
  · exact pgUuid_hex row.id
  · rw [hspelled, Option.some.injEq] at hs
    rwa [← hs]

theorem Grows.seq (h : Grows s s') {key : Uuid} {n : Nat} (hseq : seqOfKey s.db.events key = some n) : seqOfKey s'.db.events key = some n := by
  obtain ⟨new, hnew⟩ := h.events
  rw [hnew]
  exact seqOfKey_append hseq

theorem Grows.manifests (h : Grows s s') {manifest : SourceManifest} (hm : Manifests sha512 s u manifest) : Manifests sha512 s' u manifest := by
  obtain ⟨hm, w, hw, hstored⟩ := hm
  exact ⟨hm, w, h.accepted hw, hstored⟩

theorem Grows.answers (h : Grows s s') {r : SourceDescriptorResponse} (ha : Answers sha512 s u r) : Answers sha512 s' u r := by
  obtain ⟨hbytes, row, hrow, hsha, href, hid, sourceId, hs, hseq, job, hjob, hjobid⟩ := ha
  exact ⟨hbytes, row, h.sources hrow, hsha, href, hid, sourceId, h.spells hrow hs, h.seq hseq, job, h.jobs hjob, hjobid⟩

theorem Grows.phaseOk (h : Grows s s') {p : Phase} (hp : PhaseOk sha512 s u p) : PhaseOk sha512 s' u p := by
  cases p with
  | received => trivial
  | raised => trivial
  | stored manifest => exact h.manifests hp
  | unknown manifest => exact h.manifests hp
  | worked manifest workId => exact h.manifests hp
  | known manifest sourceId workId =>
    obtain ⟨hm, row, hrow, hsha, hs⟩ := hp
    exact ⟨h.manifests hm, row, h.sources hrow, hsha, h.spells hrow hs⟩
  | recorded manifest sourceId workId commit =>
    obtain ⟨⟨hm, row, hrow, hsha, hs⟩, hseq⟩ := hp
    exact ⟨⟨h.manifests hm, row, h.sources hrow, hsha, h.spells hrow hs⟩, h.seq hseq⟩
  | returned r => exact h.answers hp

/-- A step of one upload keeps what holds of the others. -/
theorem Inv.moved (h : Inv sha512 uploads s) (ht : Tables sha512 s') (hg : Grows s s') {i : Nat} {p : Phase} (hphase : s'.phase = upd s.phase i p)
    (hp : PhaseOk sha512 s' (uploads i) p) : Inv sha512 uploads s' := by
  refine ⟨ht, fun j => ?_⟩
  rw [hphase]
  by_cases hj : j = i
  · subst hj
    rw [upd_self]
    exact hp
  · rw [upd, if_neg hj]
    exact hg.phaseOk (h.phases j)

theorem Grows.phase (p : Nat → Phase) : Grows s { s with phase := p } :=
  ⟨fun _ h => h, fun _ h => h, fun _ _ => rfl, ⟨[], (List.append_nil _).symm⟩, fun _ h => h⟩

/-- The tables are kept where only a phase moves. -/
theorem Inv.waits (h : Inv sha512 uploads s) {i : Nat} {p : Phase} (hp : PhaseOk sha512 s (uploads i) p) :
    Inv sha512 uploads { s with phase := upd s.phase i p } :=
  h.moved { h.tables with rows := fun row hrow => (Grows.phase _).rowOk hrow (h.tables.rows row hrow) } (Grows.phase _) rfl
    ((Grows.phase _).phaseOk hp)

/-! ## The steps of an upload -/

theorem streamed_readsWith {n : Nat} {content : List UInt8} (h : content.length ≤ n) : streamed (readsWith n content) = content := by
  induction n generalizing content with
  | zero => rw [List.length_eq_zero_iff.1 (Nat.le_zero.1 h), readsWith, streamed, List.takeWhile_nil, List.flatten_nil]
  | succ n ih =>
    by_cases hnil : content = []
    · rw [hnil, readsWith, if_pos rfl, streamed, List.takeWhile_nil, List.flatten_nil]
    · have hpos := List.length_pos_iff.2 hnil
      have hrest : streamed (readsWith n (content.drop 65536)) = content.drop 65536 := by
        apply ih
        rw [List.length_drop]
        omega
      have hne : content.take 65536 ≠ [] := by simp [hnil]
      unfold streamed at hrest ⊢
      rw [readsWith, if_neg hnil, List.takeWhile_cons, if_pos (decide_eq_true hne), List.flatten_cons, hrest, List.take_append_drop]

/-- A stream in memory gives its bytes. -/
theorem streamed_reads (content : List UInt8) : streamed (reads content) = content := streamed_readsWith (Nat.le_refl _)

theorem Inv.put (h : Inv sha512 uploads s) (i : Nat) : Inv sha512 uploads (s.put sha512 writes maxUpload maxStored i (uploads i)) := by
  unfold State.put
  split
  · exact h.waits trivial
  · cases hput : s.archive.store.putImmutable sha512 maxStored writes (uploads i).descriptor (reads (uploads i).content) with
    | mk store result =>
      cases result with
      | error e => exact h.waits trivial
      | ok manifest =>
        have hsession : s.archive.put sha512 maxStored writes ((uploads i).descriptor, reads (uploads i).content) =
            some ⟨store, s.archive.accepted ++ [⟨(uploads i).descriptor, streamed (reads (uploads i).content), manifest⟩]⟩ := by
          simp only [Session.put, hput]
        have hkept := h.tables.kept.put (put_cases h.tables.kept hsession)
        have hmanifest := hkept.answered _ (List.mem_append_right _ List.mem_cons_self)
        rw [streamed_reads] at hmanifest
        have hgrows : Grows s { s with
            archive := ⟨store, s.archive.accepted ++ [⟨(uploads i).descriptor, streamed (reads (uploads i).content), manifest⟩]⟩
            phase := upd s.phase i (.stored manifest) } :=
          ⟨List.subset_append_left _ _, fun _ h => h, fun _ _ => rfl, ⟨[], (List.append_nil _).symm⟩, fun _ h => h⟩
        exact h.moved { h.tables with kept := hkept, rows := fun row hrow => hgrows.rowOk hrow (h.tables.rows row hrow) } hgrows rfl
          ⟨hmanifest, _, List.mem_append_right _ List.mem_cons_self, rfl, rfl⟩

theorem Inv.look (h : Inv sha512 uploads s) (i : Nat) {manifest : SourceManifest} (hm : Manifests sha512 s (uploads i) manifest) :
    Inv sha512 uploads (s.look i (uploads i) manifest) := by
  unfold State.look
  cases hfind : s.sources.find? fun row => row.sha512 = manifest.sha512 with
  | none => exact h.waits hm
  | some row =>
    have hsha : row.sha512 = manifest.sha512 := by simpa using List.find?_some hfind
    exact h.waits ⟨hm, row, List.mem_of_find?_eq_some hfind, hsha, .inl rfl⟩

theorem Inv.ensureWork (h : Inv sha512 uploads s) (i : Nat) {manifest : SourceManifest} (hm : Manifests sha512 s (uploads i) manifest) :
    Inv sha512 uploads (s.ensureWork i (uploads i) manifest) := by
  unfold State.ensureWork
  cases (uploads i).workId with
  | some workId => exact h.waits hm
  | none =>
    dsimp only
    split
    · exact h.waits trivial
    · have hgrows : Grows s { s with
          works := s.works ++ [(uploads i).drawnWork], phase := upd s.phase i (.worked manifest (uploads i).drawnWork.hex) } :=
        ⟨fun _ h => h, fun _ h => h, fun _ _ => rfl, ⟨[], (List.append_nil _).symm⟩, fun _ h => h⟩
      exact h.moved { h.tables with rows := fun row hrow => hgrows.rowOk hrow (h.tables.rows row hrow) } hgrows rfl hm

theorem sourceRow_eq {manifest : SourceManifest} {workId : String} {row : SourceRow} (h : sourceRow u manifest workId = some row) :
    pgUuid u.sourceId = some row.id ∧ row.ocflRef = manifest.objectId ∧ row.sha512 = manifest.sha512 := by
  unfold sourceRow at h
  cases hid : pgUuid u.sourceId with
  | none => simp [hid] at h
  | some id =>
    cases hwork : pgUuid workId with
    | none => simp [hid, hwork] at h
    | some work =>
      simp only [hid, hwork, Option.bind_eq_bind, Option.bind_some, Option.pure_def, Option.some.injEq] at h
      subst h
      exact ⟨rfl, rfl, rfl⟩

theorem Inv.ensureSource (h : Inv sha512 uploads s) (i : Nat) {manifest : SourceManifest} (hm : Manifests sha512 s (uploads i) manifest)
    (workId : String) : Inv sha512 uploads (s.ensureSource i (uploads i) manifest workId) := by
  unfold State.ensureSource
  cases hrow : sourceRow (uploads i) manifest workId with
  | none => exact h.waits trivial
  | some row =>
    obtain ⟨hid, href, hsha⟩ := sourceRow_eq hrow
    dsimp only
    split
    swap
    · exact h.waits trivial
    · next hadmits =>
      simp only [State.admits, Bool.and_eq_true, List.all_eq_true, decide_eq_true_eq] at hadmits
      obtain ⟨hfresh, -⟩ := hadmits
      have hother : ∀ r ∈ s.sources, Function.update s.spelled row.id (some (uploads i).sourceId) r.id = s.spelled r.id := fun r hr =>
        Function.update_of_ne (hfresh r hr).1 _ _
      have hself : Function.update s.spelled row.id (some (uploads i).sourceId) row.id = some (uploads i).sourceId := Function.update_self ..
      have hgrows : Grows s { s with
          sources := s.sources ++ [row], spelled := Function.update s.spelled row.id (some (uploads i).sourceId)
          phase := upd s.phase i (.known manifest (uploads i).sourceId (some workId)) } :=
        ⟨fun _ h => h, List.subset_append_left _ _, hother, ⟨[], (List.append_nil _).symm⟩, fun _ h => h⟩
      have hmem : row ∈ s.sources ++ [row] := List.mem_append_right _ List.mem_cons_self
      refine h.moved { h.tables with ids := ?_, digests := ?_, rows := ?_, recorded := ?_ } hgrows rfl
        ⟨hgrows.manifests hm, row, hmem, hsha, .inr hself⟩
      · rw [List.map_append, List.map_singleton]
        refine h.tables.ids.append (List.nodup_singleton _) (List.disjoint_singleton.2 fun hmap => ?_)
        obtain ⟨r, hr, he⟩ := List.mem_map.1 hmap
        exact (hfresh r hr).1 he
      · rw [List.map_append, List.map_singleton]
        refine h.tables.digests.append (List.nodup_singleton _) (List.disjoint_singleton.2 fun hmap => ?_)
        obtain ⟨r, hr, he⟩ := List.mem_map.1 hmap
        exact (hfresh r hr).2.1 he
      · intro r hr
        rcases List.mem_append.1 hr with hr | hr
        · exact hgrows.rowOk hr (h.tables.rows r hr)
        · rw [List.mem_singleton.1 hr]
          refine ⟨?_, ?_, _, hself, hid⟩
          · rw [href, hsha, hm.1]
            rfl
          · rw [href, hsha]
            exact hm.2
      · intro event hevent sourceId hkey
        obtain ⟨r, hr, hs, hrecords⟩ := h.tables.recorded event hevent sourceId hkey
        exact ⟨r, List.mem_append_left _ hr, hgrows.spells hr hs, hrecords⟩

/-- What is answered under a key is found under it. -/
theorem append_seq {db : Db} {ev : SemanticEvent} {key : Uuid} {commit : CommitResult} (h : (Ledger.append db (keyed ev key)).2 = .ok commit) :
    seqOfKey (Ledger.append db (keyed ev key)).1.events key = some commit.seq := by
  cases hfree : seqOfKey db.events key with
  | some n =>
    rw [Jobs.append_found hfree] at h ⊢
    cases h
    exact hfree
  | none =>
    have hkey : Ledger.insertKey (keyed ev key) ⟨0, ev⟩ = some key := by simp [Ledger.insertKey, keyed]
    unfold keyed at hkey
    unfold Ledger.append at h ⊢
    simp only [keyed, List.isEmpty_cons, Bool.false_eq_true, if_false, Option.bind_some, hfree, checkTail, prepareAll] at h ⊢
    cases hp : ev.prepare with
    | error e => rw [hp] at h; cases e <;> cases h
    | ok pe =>
      rw [hp] at h
      simp only [Except.map, List.zip_cons_cons, List.zip_nil_right, insertAll, insertRow, hkey, Option.bind_some, hfree, List.map_cons,
        List.map_nil] at h ⊢
      cases htier : applyTier0 db.state [ev] [db.nextSeq] with
      | error e => rw [htier] at h; cases h
      | ok state =>
        rw [htier] at h
        cases h
        rw [seqOfKey, Option.map_eq_none_iff] at hfree
        simp [seqOfKey, List.find?_append, hfree, EventRow.of]

theorem insertAll_keys (call : Call) (items : List (EventObj × PreparedEvent)) (db : Db) :
    ∃ new, (insertAll call db items).1.events = db.events ++ new ∧
      ∀ event ∈ new, event.idempotencyKey = none ∨ event.idempotencyKey = call.idempotencyKey := by
  induction items generalizing db with
  | nil => exact ⟨[], (List.append_nil _).symm, by simp⟩
  | cons item items ih =>
    simp only [insertAll, insertRow]
    have hkey : Ledger.insertKey call item.1 = none ∨ Ledger.insertKey call item.1 = call.idempotencyKey := by
      unfold Ledger.insertKey
      split
      · exact .inr rfl
      · exact .inl rfl
    cases (Ledger.insertKey call item.1).bind (seqOfKey db.events) with
    | some existing => exact ⟨[], (List.append_nil _).symm, by simp⟩
    | none =>
      obtain ⟨new, hnew, hkeys⟩ :=
        ih { db with events := db.events ++ [.of item.2 db.nextSeq (Ledger.insertKey call item.1)], nextSeq := db.nextSeq + 1 }
      refine ⟨.of item.2 db.nextSeq (Ledger.insertKey call item.1) :: new, ?_, ?_⟩
      · dsimp only at hnew ⊢
        split
        · next heq =>
          rw [heq] at hnew
          simpa using hnew
        · next heq =>
          rw [heq] at hnew
          simpa using hnew
      · intro event hevent
        rcases List.mem_cons.1 hevent with rfl | hevent
        · exact hkey
        · exact hkeys event hevent

/-- Another writer adds no event under a key that is not its own. -/
theorem append_others (db : Db) (call : Call) : ∃ new, (Ledger.append db call).1.events = db.events ++ new ∧
    ∀ event ∈ new, event.idempotencyKey = none ∨ event.idempotencyKey = call.idempotencyKey := by
  have hsame : ∃ new : List EventRow, db.events = db.events ++ new ∧
      ∀ event ∈ new, event.idempotencyKey = none ∨ event.idempotencyKey = call.idempotencyKey := ⟨[], (List.append_nil _).symm, by simp⟩
  unfold Ledger.append
  split
  · exact hsame
  · split
    · exact hsame
    · split
      · exact hsame
      · split
        · exact hsame
        · next prepared _ =>
          have hinsert := insertAll_keys call (call.events.zip prepared) db
          split
          · next heq => rw [heq] at hinsert; exact hinsert
          · next heq =>
            rw [heq] at hinsert
            split
            · exact hsame
            · exact hinsert

theorem ingestKey_inj {sourceId sourceId' : String} (h : ingestKey sourceId = ingestKey sourceId') : sourceId = sourceId' := by
  have htext := congrArg String.toList h
  simpa [ingestKey, String.toList_inj] using htext

theorem prepared_records {manifest : SourceManifest} {sourceId : String} {workId : Option String} {pe : PreparedEvent} {row : SourceRow} {n : Nat}
    (h : (ingested u manifest sourceId workId).prepare = .ok pe) (hsha : row.sha512 = manifest.sha512) (href : row.ocflRef = manifest.objectId) :
    Records (.of pe n (some (ingestKey sourceId))) row sourceId := by
  obtain ⟨v, schema, hs, hv, rfl⟩ := prepare_ok h
  have hfields := upcast_fields hs hv
  refine ⟨rfl, rfl, ?_, ?_, ?_⟩
  · exact hfields.fields "source_id" (by decide)
  · rw [hsha]
    exact hfields.fields "sha512" (by decide)
  · rw [href]
    exact hfields.fields "ocfl_ref" (by decide)

theorem Inv.record (h : Inv sha512 uploads s) (i : Nat) {manifest : SourceManifest} {sourceId : String} {workId : Option String}
    (hm : Manifests sha512 s (uploads i) manifest) (hrow : ∃ row ∈ s.sources, row.sha512 = manifest.sha512 ∧ s.Spells row sourceId) :
    Inv sha512 uploads (s.record i (uploads i) manifest sourceId workId) := by
  obtain ⟨row, hrow, hsha, hs⟩ := hrow
  have href : row.ocflRef = manifest.objectId := by
    rw [(h.tables.rows row hrow).ref, hsha, hm.1]
    rfl
  have happend := append_keyed s.db (ingested (uploads i) manifest sourceId workId) (ingestKey sourceId)
  have hanswer := @append_seq s.db (ingested (uploads i) manifest sourceId workId) (ingestKey sourceId)
  unfold State.record
  generalize Ledger.append s.db (keyed (ingested (uploads i) manifest sourceId workId) (ingestKey sourceId)) = result at happend hanswer ⊢
  obtain ⟨db, answer⟩ := result
  -- whatever the append does, the log is there, and what it adds records the row
  have hlog : ∃ new, db.events = s.db.events ++ new ∧ (∀ event ∈ new, Records event row sourceId) ∧
      ∀ other, (withKey db.events (ingestKey other)).length ≤ 1 := by
    cases happend with
    | found hfound => exact ⟨[], (List.append_nil _).symm, by simp, h.tables.once⟩
    | raised hkept => exact ⟨[], by rw [hkept, List.append_nil], by simp, by rw [hkept]; exact h.tables.once⟩
    | grown hfree hprep hgrown =>
      refine ⟨_, hgrown, ?_, fun other => ?_⟩
      · intro event hevent
        rw [List.mem_singleton.1 hevent]
        exact prepared_records hprep hsha href
      · rw [hgrown, withKey_append]
        split
        · next hkey =>
          rw [← Option.some.inj hkey, seqOfKey_none.1 hfree]
          exact Nat.le_refl 1
        · rw [List.append_nil]
          exact h.tables.once other
  obtain ⟨new, hevents, hnew, honce⟩ := hlog
  have hmoves : ∀ p, PhaseOk sha512 { s with db := db, phase := upd s.phase i p } (uploads i) p →
      Inv sha512 uploads { s with db := db, phase := upd s.phase i p } := by
    intro p hp
    have hgrows : Grows s { s with db := db, phase := upd s.phase i p } :=
      ⟨fun _ h => h, fun _ h => h, fun _ _ => rfl, ⟨new, hevents⟩, fun _ h => h⟩
    refine h.moved { h.tables with rows := fun row hrow => hgrows.rowOk hrow (h.tables.rows row hrow), recorded := ?_, once := honce, jobs := ?_ }
      hgrows rfl hp
    · intro event hevent other hkey
      rw [hevents] at hevent
      rcases List.mem_append.1 hevent with hevent | hevent
      · exact h.tables.recorded event hevent other hkey
      · have hrecords := hnew event hevent
        rw [hrecords.key, Option.some.injEq] at hkey
        rw [← ingestKey_inj hkey]
        exact ⟨row, hrow, hs, hrecords⟩
    · intro job hjob
      obtain ⟨other, hid, hjobid, event, hevent, hkey⟩ := h.tables.jobs job hjob
      exact ⟨other, hid, hjobid, event, hevents ▸ List.mem_append_left _ hevent, hkey⟩
  cases answer with
  | error e => exact hmoves _ trivial
  | ok commit => exact hmoves _ ⟨⟨hm, row, hrow, hsha, hs⟩, hanswer rfl⟩

theorem Inv.others (h : Inv sha512 uploads s) {call : Call} (hcall : ∀ sourceId, call.idempotencyKey ≠ some (ingestKey sourceId)) :
    Inv sha512 uploads { s with db := (Ledger.append s.db call).1 } := by
  obtain ⟨new, hevents, hkeys⟩ := append_others s.db call
  have hnone : ∀ event ∈ new, ∀ sourceId, event.idempotencyKey ≠ some (ingestKey sourceId) := by
    intro event hevent sourceId
    rcases hkeys event hevent with hkey | hkey
    · simp [hkey]
    · rw [hkey]
      exact hcall sourceId
  have hgrows : Grows s { s with db := (Ledger.append s.db call).1 } :=
    ⟨fun _ h => h, fun _ h => h, fun _ _ => rfl, ⟨new, hevents⟩, fun _ h => h⟩
  refine ⟨{ h.tables with rows := fun row hrow => hgrows.rowOk hrow (h.tables.rows row hrow), recorded := ?_, once := ?_, jobs := ?_ },
    fun i => hgrows.phaseOk (h.phases i)⟩
  · intro event hevent sourceId hkey
    dsimp only at hevent
    rw [hevents] at hevent
    rcases List.mem_append.1 hevent with hevent | hevent
    · exact h.tables.recorded event hevent sourceId hkey
    · exact absurd hkey (hnone event hevent sourceId)
  · intro sourceId
    have hnew : new.filter (fun r => r.idempotencyKey == some (ingestKey sourceId)) = [] := by
      rw [List.filter_eq_nil_iff]
      intro event hevent
      rw [beq_iff_eq]
      exact hnone event hevent sourceId
    rw [withKey, hevents, List.filter_append, hnew, List.append_nil]
    exact h.tables.once sourceId
  · intro job hjob
    obtain ⟨sourceId, hid, hjobid, event, hevent, hkey⟩ := h.tables.jobs job hjob
    exact ⟨sourceId, hid, hjobid, event, hevents ▸ List.mem_append_left _ hevent, hkey⟩

theorem hexVal_solid {c : Char} (h : (hexVal c).isSome = true) : Projections.isSpace c = false := by
  have hrange : (48 ≤ c.toNat ∧ c.toNat ≤ 57) ∨ (97 ≤ c.toNat ∧ c.toNat ≤ 102) ∨ (65 ≤ c.toNat ∧ c.toNat ≤ 70) := by
    unfold hexVal at h
    split_ifs at h with hd hl hu
    · exact .inl hd
    · exact .inr (.inl hl)
    · exact .inr (.inr hu)
    · cases h
  rw [← Bool.not_eq_true]
  intro hspace
  simp only [Projections.isSpace, Bool.or_eq_true, Bool.and_eq_true, decide_eq_true_eq] at hspace
  omega

/-- A text PostgreSQL reads as a UUID has no blanks. -/
theorem pgUuid_solid {text : String} {id : UuidValue} (h : pgUuid text = some id) : ∀ c ∈ text.toList, Projections.isSpace c = false := by
  have hdigit : ∀ c, c = '-' ∨ (hexFin c).isSome → Projections.isSpace c = false := by
    rintro c (rfl | hc)
    · rfl
    · rw [hexFin, Option.isSome_map] at hc
      exact hexVal_solid hc
  unfold pgUuid at h
  split at h
  · next cs htext =>
    split at h
    · next ds hscan =>
      obtain ⟨pre, rfl, hpre, -⟩ := scanBytes_text hscan
      rw [htext]
      intro c hc
      simp only [List.mem_cons, List.mem_append, List.not_mem_nil, or_false] at hc
      rcases hc with rfl | hc | rfl
      · rfl
      · exact hdigit c (hpre c hc)
      · rfl
    · cases h
  · split at h
    · next ds hscan =>
      obtain ⟨pre, htext, hpre, -⟩ := scanBytes_text hscan
      rw [htext, List.append_nil]
      exact fun c hc => hdigit c (hpre c hc)
    · cases h

/-- Each spelling of a source is answered in the one form. -/
theorem dashed_of_pgUuid {text : String} {id : UuidValue} (h : pgUuid text = some id) : Query.dashedUuid text = id.dashed := by
  have hsolid := pgUuid_solid h
  have hstrip : Projections.strip text = text := by
    unfold Projections.strip
    rw [dropWhile_none hsolid, dropWhile_none (fun c hc => hsolid c (List.mem_reverse.1 hc)), List.reverse_reverse, String.ofList_toList]
  rw [Query.dashedUuid, hstrip, pyUuid_of_pgUuid h]
  rfl

theorem response_source {manifest : SourceManifest} {sourceId : String} {workId : Option String} {commit : CommitResult} {id : UuidValue}
    (h : pgUuid sourceId = some id) : (response u manifest sourceId workId commit).sourceId = id.dashed := by
  have hne : id.dashed ≠ "" := by
    intro hempty
    have hread := pgUuid_dashed id
    rw [hempty] at hread
    cases hread
  rw [response, dashed_of_pgUuid h]
  exact if_neg hne

theorem mem_createJob (jobs : List JobRow) {sourceId : String} {id : UuidValue} (hid : pgUuid sourceId = some id) :
    ∃ job ∈ createJob jobs sourceId, job.id = jobId sourceId := by
  simp only [createJob, hid]
  split
  · next hany =>
    obtain ⟨job, hjob, hsame⟩ := List.any_eq_true.1 hany
    exact ⟨job, hjob, of_decide_eq_true hsame⟩
  · exact ⟨_, List.mem_append_right _ List.mem_cons_self, rfl⟩

theorem createJob_cases {jobs : List JobRow} {sourceId : String} {job : JobRow} (h : job ∈ createJob jobs sourceId) :
    job ∈ jobs ∨ pgUuid sourceId = some job.sourceId ∧ job.id = jobId sourceId := by
  unfold createJob at h
  cases hid : pgUuid sourceId with
  | none =>
    rw [hid] at h
    exact .inl h
  | some id =>
    simp only [hid] at h
    split at h
    · exact .inl h
    · rcases List.mem_append.1 h with h | h
      · exact .inl h
      · rw [List.mem_singleton.1 h]
        exact .inr ⟨rfl, rfl⟩

theorem subset_createJob (jobs : List JobRow) (sourceId : String) : jobs ⊆ createJob jobs sourceId := by
  unfold createJob
  split
  · exact List.Subset.refl _
  · split
    · exact List.Subset.refl _
    · exact List.subset_append_left _ _

theorem Inv.dispatch (h : Inv sha512 uploads s) (i : Nat) {manifest : SourceManifest} {sourceId : String} {workId : Option String}
    {commit : CommitResult} (hm : Manifests sha512 s (uploads i) manifest)
    (hrow : ∃ row ∈ s.sources, row.sha512 = manifest.sha512 ∧ s.Spells row sourceId)
    (hseq : seqOfKey s.db.events (ingestKey sourceId) = some commit.seq) (dispatch : Dispatch) :
    Inv sha512 uploads (s.dispatch i (uploads i) manifest sourceId workId commit dispatch) := by
  obtain ⟨row, hrow, hsha, hs⟩ := hrow
  have hid := (h.tables.rows row hrow).reads hs
  have hcreated : ∀ p, PhaseOk sha512 { s with jobs := createJob s.jobs sourceId, phase := upd s.phase i p } (uploads i) p →
      Inv sha512 uploads { s with jobs := createJob s.jobs sourceId, phase := upd s.phase i p } := by
    intro p hp
    have hgrows : Grows s { s with jobs := createJob s.jobs sourceId, phase := upd s.phase i p } :=
      ⟨fun _ h => h, fun _ h => h, fun _ _ => rfl, ⟨[], (List.append_nil _).symm⟩, subset_createJob _ _⟩
    refine h.moved { h.tables with rows := fun row hrow => hgrows.rowOk hrow (h.tables.rows row hrow), jobs := ?_ } hgrows rfl hp
    intro job hjob
    rcases createJob_cases hjob with hjob | ⟨hsource, hjobid⟩
    · exact h.tables.jobs job hjob
    · exact ⟨sourceId, hsource, hjobid, seqOfKey_row hseq⟩
  cases dispatch with
  | refused => exact h.waits trivial
  | failed => exact hcreated _ trivial
  | accepted =>
    refine hcreated _ ⟨?_, row, hrow, ?_, ?_, ?_, sourceId, hs, hseq, mem_createJob _ hid⟩
    · rw [response, hm.1]
      rfl
    · exact hsha
    · rw [(h.tables.rows row hrow).ref, hsha, hm.1]
      rfl
    · exact response_source hid

/-! ## Every interleaving -/

theorem Inv.step (h : Inv sha512 uploads s) {a : Act} (ha : OtherKeys s a) (hstep : s.step sha512 writes maxUpload maxStored uploads a = some s') :
    Inv sha512 uploads s' := by
  cases a with
  | append call =>
    cases hstep
    exact h.others ha
  | upload i dispatch =>
    have hphase := h.phases i
    unfold State.step at hstep
    dsimp only at hstep
    cases hp : s.phase i with
    | received =>
      rw [hp] at hstep
      cases hstep
      exact h.put i
    | stored manifest =>
      rw [hp] at hstep hphase
      cases hstep
      exact h.look i hphase
    | unknown manifest =>
      rw [hp] at hstep hphase
      cases hstep
      exact h.ensureWork i hphase
    | worked manifest workId =>
      rw [hp] at hstep hphase
      cases hstep
      exact h.ensureSource i hphase workId
    | known manifest sourceId workId =>
      rw [hp] at hstep hphase
      cases hstep
      exact h.record i hphase.1 hphase.2
    | recorded manifest sourceId workId commit =>
      rw [hp] at hstep hphase
      cases hstep
      exact h.dispatch i hphase.1.1 hphase.1.2 hphase.2 dispatch
    | returned r => rw [hp] at hstep; cases hstep
    | raised => rw [hp] at hstep; cases hstep

theorem inv_init : Inv sha512 uploads {} where
  tables := {
    kept := ⟨fun _ => rfl, by simp, List.nodup_nil⟩, ids := List.nodup_nil, digests := List.nodup_nil, rows := by simp, recorded := by simp
    once := fun _ => Nat.zero_le _, jobs := by simp }
  phases _ := trivial

/-- What holds of the tables and the answers, however far each upload has come. -/
structure Settled (sha512 : List UInt8 → String) (uploads : Nat → Upload) (s : State) : Prop where
  /-- A job is there only with the event of its source. -/
  jobs : ∀ job ∈ s.jobs, ∃ sourceId, pgUuid sourceId = some job.sourceId ∧ job.id = jobId sourceId ∧
    ∃ event ∈ s.db.events, event.idempotencyKey = some (ingestKey sourceId)
  /-- An event is there only with its row, of which it says the digest and the ref, and once for each of two spellings. -/
  events : ∀ event ∈ s.db.events, ∀ sourceId, event.idempotencyKey = some (ingestKey sourceId) →
    ∃ row ∈ s.sources, pgUuid sourceId = some row.id ∧ s.Spells row sourceId ∧ Records event row sourceId ∧
      withKey s.db.events (ingestKey sourceId) = [event]
  /-- A row is there only with its bytes, and only once. -/
  rows : ∀ row ∈ s.sources, s.archive.store.verifyFixity sha512 row.ocflRef = .ok true ∧
    ∀ row' ∈ s.sources, row'.id = row.id ∨ row'.sha512 = row.sha512 → row' = row
  answers : ∀ i r, s.phase i = .returned r → Answers sha512 s (uploads i) r
  /-- Two uploads are answered with one source if and only if their bytes have one digest. -/
  same : ∀ i j r r', s.phase i = .returned r → s.phase j = .returned r' →
    (r.sourceId = r'.sourceId ↔ sha512 (uploads i).content = sha512 (uploads j).content)

theorem Tables.row_eq (h : Tables sha512 s) {row row' : SourceRow} (hrow : row ∈ s.sources) (hrow' : row' ∈ s.sources)
    (heq : row'.id = row.id ∨ row'.sha512 = row.sha512) : row' = row := by
  rcases heq with hid | hsha
  · exact List.inj_on_of_nodup_map h.ids hrow' hrow hid
  · exact List.inj_on_of_nodup_map h.digests hrow' hrow hsha

/-- An event under the key of a spelling is the only one. -/
theorem Tables.alone (h : Tables sha512 s) {event : EventRow} (hevent : event ∈ s.db.events) {sourceId : String}
    (hkey : event.idempotencyKey = some (ingestKey sourceId)) : withKey s.db.events (ingestKey sourceId) = [event] := by
  have hmem : event ∈ withKey s.db.events (ingestKey sourceId) := List.mem_filter.2 ⟨hevent, by rw [hkey]; exact beq_self_eq_true _⟩
  obtain ⟨e, he⟩ := List.length_eq_one_iff.1 (Nat.le_antisymm (h.once sourceId) (List.length_pos_of_mem hmem))
  rw [he] at hmem ⊢
  rw [List.mem_singleton.1 hmem]

/-- What is found under a spelling of a source records it. -/
theorem Tables.event_of_seq (h : Tables sha512 s) {row : SourceRow} (hrow : row ∈ s.sources) {sourceId : String} (hs : s.Spells row sourceId)
    {n : Nat} (hseq : seqOfKey s.db.events (ingestKey sourceId) = some n) :
    ∃ event, withKey s.db.events (ingestKey sourceId) = [event] ∧ event.seq = n ∧ Records event row sourceId := by
  obtain ⟨event, hfind, hn⟩ := Option.map_eq_some_iff.1 hseq
  have hevent := List.mem_of_find?_eq_some hfind
  have hkey : event.idempotencyKey = some (ingestKey sourceId) := by simpa using List.find?_some hfind
  obtain ⟨row', hrow', hs', hrecords⟩ := h.recorded event hevent sourceId hkey
  have hid := (h.rows row' hrow').reads hs'
  rw [(h.rows row hrow).reads hs] at hid
  rw [h.row_eq hrow hrow' (.inl (Option.some.inj hid).symm)] at hrecords
  exact ⟨event, h.alone hevent hkey, hn, hrecords⟩

/-! ## What answers an upload of known bytes -/

/-- The record of an ingestion is refused for nothing but its digest. -/
theorem ingested_commits {manifest : SourceManifest} (h : sha512Pattern manifest.sha512 = true) (u : Upload) (sourceId : String)
    (workId : Option String) (db : Db) (key : Uuid) :
    ∃ db' commit, Ledger.append db (keyed (ingested u manifest sourceId workId) key) = (db', .ok commit) := by
  have htext : ∀ text : Option String, Schema.valid Umd.Events.str? (.ofStr? text) = true := by
    intro text
    cases text <;> rfl
  have hvalid : validatePayload .SourceIngested 1 (ingested u manifest sourceId workId).payload = .ok () := by
    simp only [validatePayload, loadSchema, ingested]
    refine if_pos ?_
    simp [Schema.valid, Schema.validProps, Dict.get?, Dict.keys, htext, h, Number.isInteger]
  have hprepare : (ingested u manifest sourceId workId).prepare =
      (validatePayload .SourceIngested 1 (ingested u manifest sourceId workId).payload).bind fun _ =>
      (validatePayload .SourceIngested 1 (ingested u manifest sourceId workId).payload).bind fun _ => .ok _ := rfl
  obtain ⟨pe, hpe⟩ : ∃ pe, (ingested u manifest sourceId workId).prepare = .ok pe := by
    rw [hprepare, hvalid]
    exact ⟨_, rfl⟩
  unfold Ledger.append
  simp only [keyed, List.isEmpty_cons, Bool.false_eq_true, if_false, Option.bind_some]
  cases hk : seqOfKey db.events key with
  | some n => exact ⟨_, _, rfl⟩
  | none =>
    have hfree : ((Ledger.insertKey { events := [⟨0, ingested u manifest sourceId workId⟩], idempotencyKey := some key }
        ⟨0, ingested u manifest sourceId workId⟩).bind (seqOfKey db.events)) = none := by
      simp [Ledger.insertKey, hk]
    simp only [checkTail, prepareAll, hpe, Except.map, List.zip_cons_cons, List.zip_nil_right, insertAll, insertRow, hfree]
    exact ⟨_, _, rfl⟩

/-- Bytes whose object is there are accepted. -/
theorem Tables.putImmutable (h : Tables sha512 s) {row : SourceRow} (hrow : row ∈ s.sources) (hsha : row.sha512 = sha512 u.content)
    (hsize : u.content.length ≤ maxStored) :
    s.archive.store.putImmutable sha512 maxStored writes u.descriptor (reads u.content) =
      (s.archive.store, .ok (manifestOf sha512 u.descriptor u.content)) := by
  obtain ⟨href, ⟨w, hw, hid, -⟩, -⟩ := h.rows row hrow
  obtain ⟨w₀, -, hfirst⟩ := first_of_mem hw
  have hobject := h.kept.objects w.manifest.objectId
  rw [hfirst, Option.map_some, hid, href, hsha] at hobject
  have hspool := @spool_eq maxStored (reads u.content) [] (Nat.zero_le _)
  rw [List.nil_append, streamed_reads, if_pos hsize] at hspool
  have hdescriptor : objectId u.descriptor.kind (sha512 u.content) = objectId .source (sha512 u.content) := rfl
  simp only [Store.putImmutable, hspool, Store.putBytes, hdescriptor, hobject, firstVersion_verified]

/-- What a resent upload is answered with. -/
structure Resent (s : State) (row : SourceRow) (r : SourceDescriptorResponse) : Prop where
  source : r.sourceId = row.id.dashed
  event : ∃ event, withKey s.db.events (ingestKey row.id.hex) = [event] ∧ event.seq = r.seq ∧ Records event row row.id.hex
  job : ∃ job ∈ s.jobs, job.id = jobId row.id.hex

section Resent

variable {j : Nat} {row : SourceRow} {manifest : SourceManifest}

theorem step_stored (hphase : s.phase j = .stored manifest) (hfind : s.sources.find? (fun row => row.sha512 = manifest.sha512) = some row) :
    s.step sha512 writes maxUpload maxStored uploads (.upload j .accepted) = some { s with
      phase := upd s.phase j (.known manifest row.id.hex ((uploads j).workId.or (row.workId.map UuidValue.hex))) } := by
  simp only [State.step, hphase, State.look, hfind]

/-- From where the source is known, two steps answer the upload. -/
theorem steps_known (h : Inv sha512 uploads s) (hrow : row ∈ s.sources) {workId : Option String}
    (hphase : s.phase j = .known manifest row.id.hex workId) (hpattern : sha512Pattern manifest.sha512 = true) :
    ∃ s' r, runAll (State.step sha512 writes maxUpload maxStored uploads) s (List.replicate 2 (.upload j .accepted)) = some s' ∧
      s'.phase j = .returned r ∧ Resent s' row r := by
  have hknown := h.phases j
  rw [hphase] at hknown
  obtain ⟨db, commit, happend⟩ := ingested_commits hpattern (uploads j) row.id.hex workId s.db (ingestKey row.id.hex)
  have hrecord : s.record j (uploads j) manifest row.id.hex workId =
      { s with db := db, phase := upd s.phase j (.recorded manifest row.id.hex workId commit) } := by
    rw [State.record, happend]
  have hinv := @Inv.record sha512 uploads s h j _ _ workId hknown.1 hknown.2
  rw [hrecord] at hinv
  have hrecorded := hinv.phases j
  simp only [upd_self] at hrecorded
  have hid := (h.tables.rows row hrow).reads (.inl rfl : s.Spells row row.id.hex)
  have hstep : s.step sha512 writes maxUpload maxStored uploads (.upload j .accepted) =
      some { s with db := db, phase := upd s.phase j (.recorded manifest row.id.hex workId commit) } := by
    simp only [State.step, hphase, hrecord]
  have hstep' : State.step sha512 writes maxUpload maxStored uploads
      { s with db := db, phase := upd s.phase j (.recorded manifest row.id.hex workId commit) } (.upload j .accepted) =
      some { s with
        db := db, jobs := createJob s.jobs row.id.hex
        phase := upd (upd s.phase j (.recorded manifest row.id.hex workId commit)) j
          (.returned (response (uploads j) manifest row.id.hex workId commit)) } := by
    simp only [State.step, upd_self, State.dispatch]
  have hrun : runAll (State.step sha512 writes maxUpload maxStored uploads) s (List.replicate 2 (.upload j .accepted)) = some { s with
      db := db, jobs := createJob s.jobs row.id.hex
      phase := upd (upd s.phase j (.recorded manifest row.id.hex workId commit)) j
        (.returned (response (uploads j) manifest row.id.hex workId commit)) } := by
    simp only [List.replicate, runAll, hstep, hstep', Option.bind_some]
  exact ⟨_, _, hrun, upd_self .., response_source hid, hinv.tables.event_of_seq hrow (.inl rfl) hrecorded.2, mem_createJob s.jobs hid⟩

/-- Bytes whose source has a row are answered with it in four steps. -/
theorem Inv.resent (hinv : Inv sha512 uploads s) (hj : s.phase j = .received)
    (hfits : maxUpload = 0 ∨ (uploads j).content.length ≤ maxUpload) (hsize : (uploads j).content.length ≤ maxStored)
    (hpattern : sha512Pattern (sha512 (uploads j).content) = true) (hrow : row ∈ s.sources) (hsha : row.sha512 = sha512 (uploads j).content) :
    ∃ s' r, runAll (State.step sha512 writes maxUpload maxStored uploads) s (List.replicate 4 (.upload j .accepted)) = some s' ∧
      s'.phase j = .returned r ∧ Resent s' row r := by
  -- the bytes are found in the store, and the row by their digest
  have hput : s.put sha512 writes maxUpload maxStored j (uploads j) = { s with
      archive := ⟨s.archive.store, s.archive.accepted ++ [⟨(uploads j).descriptor, streamed (reads (uploads j).content),
        manifestOf sha512 (uploads j).descriptor (uploads j).content⟩]⟩
      phase := upd s.phase j (.stored (manifestOf sha512 (uploads j).descriptor (uploads j).content)) } := by
    rw [State.put, if_neg (by omega), hinv.tables.putImmutable hrow hsha hsize]
  have hfind : s.sources.find? (fun row => row.sha512 = sha512 (uploads j).content) = some row := by
    cases hfind : s.sources.find? (fun row => row.sha512 = sha512 (uploads j).content) with
    | none => exact absurd (decide_eq_true hsha) (List.find?_eq_none.1 hfind row hrow)
    | some row' =>
      have hsha' : row'.sha512 = sha512 (uploads j).content := by simpa using List.find?_some hfind
      rw [hinv.tables.row_eq hrow (List.mem_of_find?_eq_some hfind) (.inr (hsha'.trans hsha.symm))]
  have hinv₁ := @Inv.put sha512 writes maxUpload maxStored uploads s hinv j
  have hstep₁ : s.step sha512 writes maxUpload maxStored uploads (.upload j .accepted) =
      some (s.put sha512 writes maxUpload maxStored j (uploads j)) := by simp only [State.step, hj]
  have hphase₁ : (s.put sha512 writes maxUpload maxStored j (uploads j)).phase j =
      .stored (manifestOf sha512 (uploads j).descriptor (uploads j).content) := by
    rw [hput]
    exact upd_self ..
  have hsources : (s.put sha512 writes maxUpload maxStored j (uploads j)).sources = s.sources := by rw [hput]
  generalize s.put sha512 writes maxUpload maxStored j (uploads j) = s₁ at hinv₁ hstep₁ hphase₁ hsources
  have hstored := hinv₁.phases j
  rw [hphase₁] at hstored
  have hstep₂ := @step_stored sha512 writes maxUpload maxStored uploads s₁ j row _ hphase₁ (hsources ▸ hfind)
  have hinv₂ := hinv₁.step (a := .upload j .accepted) trivial hstep₂
  obtain ⟨s', r, hrun, hreturned, hresent⟩ := @steps_known sha512 writes maxUpload maxStored uploads _ j row _ hinv₂ (hsources ▸ hrow) _
    (upd_self ..) hpattern
  refine ⟨s', r, ?_, hreturned, hresent⟩
  simp only [List.replicate, runAll, hstep₁, hstep₂, Option.bind_some] at hrun ⊢
  exact hrun

end Resent

/-! ## Whole runs -/

theorem length_repeated (digit : Fin 16) : (List.replicate 32 digit).length = 32 := List.length_replicate

/-- An id of one digit. -/
def repeated (digit : Fin 16) : UuidValue := ⟨List.replicate 32 digit, length_repeated digit⟩

/-- The digits of the bytes, in a text of the length of a digest. -/
def paddedDigest (bytes : List UInt8) : String :=
  String.ofList (((bytes.flatMap fun b => [hexDigit (b.toNat / 16), hexDigit (b.toNat % 16)]) ++ List.replicate 128 '0').take 128)

/-- Two uploads of the same bytes, one of which spells its source with hyphens. -/
def noteUploads : Nat → Upload
  | 0 => { content := [0x68, 0x69], sourceId := (repeated 1).dashed, drawnWork := repeated 2 }
  | _ => { content := [0x68, 0x69], sourceId := (repeated 3).hex, drawnWork := repeated 4 }

theorem noteUploads_pattern (i : Nat) : sha512Pattern (paddedDigest (noteUploads i).content) = true := by
  have hcontent : (noteUploads i).content = [0x68, 0x69] := by
    cases i <;> rfl
  rw [hcontent, sha512Pattern, paddedDigest, String.toList_ofList]
  decide +kernel

/-- The first upload stops when its row is there. -/
def stoppedActs : List Act := List.replicate 4 (.upload 0 .accepted)

def State.stopped (s : State) : Bool :=
  match s.phase 1 with
  | .received => s.db.events.isEmpty && s.sources.any (·.sha512 = paddedDigest [0x68, 0x69])
  | _ => false

theorem stopped_reached : ∃ (s : State) (row : SourceRow), Run (State.step paddedDigest (fun _ _ => true) 8 8 noteUploads) OtherKeys {} s ∧
    s.stopped = true ∧ s.phase 1 = .received ∧ row ∈ s.sources ∧ row.sha512 = paddedDigest (noteUploads 1).content := by
  have hrun : (runAll (State.step paddedDigest (fun _ _ => true) 8 8 noteUploads) {} stoppedActs).any State.stopped = true := by decide +kernel
  cases hs : runAll (State.step paddedDigest (fun _ _ => true) 8 8 noteUploads) {} stoppedActs with
  | none =>
    rw [hs] at hrun
    exact absurd hrun Bool.false_ne_true
  | some s =>
    rw [hs, Option.any_some] at hrun
    have hstopped := hrun
    unfold State.stopped at hstopped
    split at hstopped
    · next hphase =>
      obtain ⟨row, hrow, hsha⟩ := List.any_eq_true.1 (Bool.and_eq_true_iff.1 hstopped).2
      have hall : ∀ a ∈ stoppedActs, ∀ s, OtherKeys s a := by
        intro a ha s
        rw [List.eq_of_mem_replicate ha]
        trivial
      exact ⟨s, row, run_of_admitted hall hs, hrun, hphase, hrow, of_decide_eq_true hsha⟩
    · exact absurd hstopped Bool.false_ne_true

/-- **In every interleaving of uploads, however far each has come, there is no job without its event, no event without its row and no row
without its bytes; and two uploads are answered with one source if and only if their bytes have one digest.** -/
theorem uploads_settled (h : Run (State.step sha512 writes maxUpload maxStored uploads) OtherKeys {} s) : Settled sha512 uploads s := by
  have hinv : Inv sha512 uploads s := h.inv _ inv_init fun s a s' hs ha hstep => hs.step ha hstep
  have htables := hinv.tables
  refine ⟨htables.jobs, ?_, ?_, fun i r hr => ?_, fun i j r r' hr hr' => ?_⟩
  · intro event hevent sourceId hkey
    obtain ⟨row, hrow, hs, hrecords⟩ := htables.recorded event hevent sourceId hkey
    exact ⟨row, hrow, (htables.rows row hrow).reads hs, hs, hrecords, htables.alone hevent hkey⟩
  · intro row hrow
    refine ⟨?_, fun row' hrow' heq => htables.row_eq hrow hrow' heq⟩
    obtain ⟨w, hw, href, -⟩ := (htables.rows row hrow).archived
    rw [← href]
    exact htables.kept.verified hw
  · have hphase := hinv.phases i
    rw [hr] at hphase
    exact hphase
  · have hi := hinv.phases i
    have hj := hinv.phases j
    rw [hr] at hi
    rw [hr'] at hj
    obtain ⟨hbytes, row, hrow, hsha, -, hid, -⟩ := hi
    obtain ⟨hbytes', row', hrow', hsha', -, hid', -⟩ := hj
    rw [← hbytes, ← hbytes', ← hsha, ← hsha', hid, hid']
    constructor
    · intro heq
      have hread := pgUuid_dashed row.id
      rw [heq, pgUuid_dashed] at hread
      rw [htables.row_eq hrow hrow' (.inl (Option.some.inj hread))]
    · intro heq
      rw [htables.row_eq hrow hrow' (.inr heq.symm)]

/-- The second upload is answered while the first one has not recorded its event. -/
theorem uploads_settled_notes : ∃ (s : State) (row : SourceRow) (r : SourceDescriptorResponse),
    s.phase 1 = .returned r ∧ Resent s row r ∧ Settled paddedDigest noteUploads s := by
  obtain ⟨s, row, hfirst, -, hphase, hrow, hsha⟩ := stopped_reached
  have hinv : Inv paddedDigest noteUploads s := hfirst.inv _ inv_init fun s a s' hs ha hstep => hs.step ha hstep
  obtain ⟨s', r, hrest, hreturned, hresent⟩ := @Inv.resent paddedDigest (fun _ _ => true) 8 8 noteUploads s 1 row hinv hphase
    (.inr (by decide)) (by decide) (noteUploads_pattern 1) hrow hsha
  refine ⟨s', row, r, hreturned, hresent, @uploads_settled paddedDigest (fun _ _ => true) 8 8 noteUploads s'
    (hfirst.trans (run_of_admitted (fun a ha _ => ?_) hrest))⟩
  rw [List.eq_of_mem_replicate ha]
  trivial

end Umd.Sources
