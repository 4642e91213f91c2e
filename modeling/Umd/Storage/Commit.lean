import Umd.Storage.Mirror
import Umd.Storage.InlineFold
/-!
# Commits with the mirror

`append` and `complete_and_append` with every table they write: the ledger, the
`semantic_assertion` mirror and the tables of the side effects. A call commits
a row for each event with all deltas, or nothing, unless it repeats its first
event object under a fresh key: the second insert then finds the key the first
one took, and the call returns in the middle of its batch
(`rows_whole_iff`).
-/

namespace Umd.Ledger

open Umd.Lib Umd.Events Umd.Reducer

/-- The tables of a transaction; `σ` are those of the side effects. -/
structure Store (σ : Type) where
  ledger : Db := {}
  mirror : Mirror := {}
  other : σ

namespace Store

variable {σ : Type}

/-- A transaction that raises leaves the tables as they were. -/
def rolledBack (t : Store σ) (ledger : Db) : Store σ := { t with ledger := rollback t.ledger ledger }

/-- `_append_all_events_on`, and `append` around it. -/
def append (t : Store σ) (call : Call) : Store σ × Except AppendError CommitResult :=
  if call.events.isEmpty then (t, .error .emptyBatch) else
  match call.idempotencyKey.bind (seqOfKey t.ledger.events) with
  | some existing => (t, .ok ⟨existing, existing⟩)
  | none =>
    match checkTail t.ledger.events call.expectedVersion with
    | .error e => (t, .error e)
    | .ok () =>
      match prepareAll call.events with
      | .error e => (t, .error e)
      | .ok prepared =>
        match insertAll call t.ledger (call.events.zip prepared) with
        | (db', .error existing) => ({ t with ledger := db' }, .ok ⟨existing, existing⟩)
        | (db', .ok seqs) =>
          match applyTier0 db'.state (call.events.map (·.event)) seqs with
          | .error e => (t.rolledBack db', .error (.python e))
          | .ok state =>
            ({ t with
                ledger := { db' with state := state }
                mirror := materializeAssertions state t.mirror prepared seqs },
              .ok ⟨seqs.headD 0, seqs.headD 0⟩)

/-- `complete_and_append`: the side effects run in the transaction of the append. -/
def completeAndAppend (t : Store σ) (call : Call) (sideEffects : Store σ → Except PyError σ) :
    Store σ × Except AppendError CommitResult :=
  match t.append { call with expectedVersion := none } with
  | (t', .error e) => (t', .error e)
  | (t', .ok result) =>
    match sideEffects t' with
    | .error e => (t.rolledBack t'.ledger, .error (.python e))
    | .ok other => ({ t' with other := other }, .ok result)

/-- The ledger of the store is appended to as a ledger alone. -/
theorem append_ledger (t : Store σ) (call : Call) :
    Ledger.append t.ledger call = ((t.append call).1.ledger, (t.append call).2) := by
  unfold append Ledger.append
  by_cases hne : call.events.isEmpty = true
  · rw [if_pos hne, if_pos hne]
  · rw [if_neg hne, if_neg hne]
    cases call.idempotencyKey.bind (seqOfKey t.ledger.events) with
    | some existing => rfl
    | none =>
      cases checkTail t.ledger.events call.expectedVersion with
      | error e => rfl
      | ok _ =>
        cases prepareAll call.events with
        | error e => rfl
        | ok prepared =>
          dsimp only
          obtain ⟨db', existing | seqs⟩ := insertAll call t.ledger (call.events.zip prepared)
          · rfl
          · dsimp only
            cases applyTier0 db'.state (call.events.map (·.event)) seqs <;> rfl

theorem append_other (t : Store σ) (call : Call) : (t.append call).1.other = t.other := by
  unfold append
  split
  · rfl
  · split
    · rfl
    · split
      · rfl
      · split
        · rfl
        · split
          · rfl
          · split <;> rfl

/-! ## What a call does -/

/-- No table differs. -/
structure Unchanged (t t' : Store σ) : Prop where
  events : t'.ledger.events = t.ledger.events
  state : t'.ledger.state = t.ledger.state
  mirror : t'.mirror = t.mirror
  other : t'.other = t.other

/-- The key is committed: no event row, no delta, the seq of the first commit. -/
structure Known (t : Store σ) (call : Call) (t' : Store σ) (result : CommitResult) : Prop where
  key : ∃ key, call.idempotencyKey = some key ∧ seqOfKey t.ledger.events key = some result.seq
  token : result.readYourWritesToken = result.seq
  events : t'.ledger.events = t.ledger.events
  state : t'.ledger.state = t.ledger.state
  mirror : t'.mirror = t.mirror

/-- One row for each event, under the next seqs in order, and the deltas of all of them. -/
structure Whole (t : Store σ) (call : Call) (t' : Store σ) (result : CommitResult) (prepared : List PreparedEvent)
    (seqs : List Nat) : Prop where
  valid : prepareAll call.events = .ok prepared
  each : seqs = List.range' t.ledger.nextSeq call.events.length
  events : t'.ledger.events = t.ledger.events ++ rowsAt call (call.events.zip prepared) seqs
  state : applyTier0 t.ledger.state (call.events.map (·.event)) seqs = .ok t'.ledger.state
  mirror : t'.mirror = materializeAssertions t'.ledger.state t.mirror prepared seqs
  result : result = ⟨seqs.headD 0, seqs.headD 0⟩

/-- All of the batch or nothing of it. -/
def OneRowEach (t : Store σ) (call : Call) (out : Store σ × Except AppendError CommitResult) : Prop :=
  match out.2 with
  | .error _ => Unchanged t out.1
  | .ok result => Known t call out.1 result ∨ ∃ prepared seqs, Whole t call out.1 result prepared seqs

/-- `append` has no side effects. -/
def noEffects (t : Store σ) : Except PyError σ := .ok t.other

/-- The call reaches its inserts with a key no row has, repeats its first event object, and no side effect raises. -/
def CutShort (t : Store σ) (call : Call) (sideEffects : Store σ → Except PyError σ) : Prop :=
  reusesKey t.ledger call ∧ checkTail t.ledger.events call.expectedVersion = .ok () ∧
    (∃ prepared, prepareAll call.events = .ok prepared) ∧ ∃ other, sideEffects (t.append call).1 = .ok other

end Store

/-! ## A batch that is cut short -/

/-- The event object is the first one of the call. -/
def Call.isFirst (call : Call) (ev : EventObj) : Bool := call.events.head?.any (·.id = ev.id)

theorem insertKey_eq (call : Call) (ev : EventObj) :
    insertKey call ev = if call.isFirst ev then call.idempotencyKey else none := rfl

/-- The items before the first event object comes again. -/
def Call.untilRepeat (call : Call) (items : List (EventObj × PreparedEvent)) : List (EventObj × PreparedEvent) :=
  items.take 1 ++ (items.drop 1).takeWhile fun item => !call.isFirst item.1

/-- A key that is on a row is found. -/
theorem seqOfKey_of_mem {rows : List EventRow} {key : Uuid} (h : ∃ r ∈ rows, r.idempotencyKey = some key) :
    ∃ n, seqOfKey rows key = some n := by
  obtain ⟨r, hr, hk⟩ := h
  cases hs : seqOfKey rows key with
  | some n => exact ⟨n, rfl⟩
  | none =>
    simp only [seqOfKey, Option.map_eq_none_iff, List.find?_eq_none] at hs
    exact absurd (hs r hr) (by simp [hk])

/-- Once a row has the key, the inserts end where the first object comes again. -/
theorem insertAll_until {call : Call} {key : Uuid} (hkey : call.idempotencyKey = some key)
    {items : List (EventObj × PreparedEvent)} (hm : ∃ item ∈ items, call.isFirst item.1 = true) :
    ∀ db : Db, (∃ r ∈ db.events, r.idempotencyKey = some key) → ∃ db' existing,
      insertAll call db items = (db', .error existing) ∧
      db'.events = db.events ++ rowsFrom call db.nextSeq (items.takeWhile fun item => !call.isFirst item.1) := by
  induction items with
  | nil => obtain ⟨_, h, _⟩ := hm; cases h
  | cons item items ih =>
    obtain ⟨ev, pe⟩ := item
    intro db hr
    simp only [insertAll, insertRow, insertKey_eq, List.takeWhile_cons]
    cases hf : call.isFirst ev with
    | true =>
      obtain ⟨n, hn⟩ := seqOfKey_of_mem hr
      simp only [if_true, hkey, Option.bind_some, hn]
      exact ⟨_, n, rfl, by simp [rowsFrom, rowsAt]⟩
    | false =>
      have hm' : ∃ item ∈ items, call.isFirst item.1 = true := by
        obtain ⟨item, hi, hif⟩ := hm
        rcases List.mem_cons.1 hi with rfl | hi
        · rw [hf] at hif; cases hif
        · exact ⟨item, hi, hif⟩
      obtain ⟨db', n, hins, hev⟩ := ih hm'
        { db with events := db.events ++ [.of pe db.nextSeq none], nextSeq := db.nextSeq + 1 }
        (by obtain ⟨r, hr, hk⟩ := hr; exact ⟨r, List.mem_append_left _ hr, hk⟩)
      simp only [Bool.false_eq_true, if_false, Option.bind_none, hins, Bool.not_false, if_true]
      refine ⟨db', n, rfl, ?_⟩
      rw [hev, rowsFrom_cons, insertKey_eq, hf, List.append_assoc]
      rfl

/-- A batch that repeats its first object under a fresh key is inserted up to the repeat. -/
theorem insertAll_reused {db : Db} {call : Call} {prepared : List PreparedEvent} (h : reusesKey db call)
    (hp : prepareAll call.events = .ok prepared) :
    ∃ db' existing, insertAll call db (call.events.zip prepared) = (db', .error existing) ∧
      db'.events = db.events ++ rowsFrom call db.nextSeq (call.untilRepeat (call.events.zip prepared)) ∧
      (call.untilRepeat (call.events.zip prepared)).length < call.events.length := by
  obtain ⟨hkey, hfree, ev', hev', hsame⟩ := h
  obtain ⟨key, hkey⟩ := Option.ne_none_iff_exists'.1 hkey
  have hlen := prepareAll_length hp
  cases hev : call.events with
  | nil => rw [hev] at hev'; cases hev'
  | cons ev evs =>
    rw [hev] at hlen hev'
    cases prepared with
    | nil => cases hlen
    | cons pe pes =>
      simp only [List.length_cons, Nat.add_right_cancel_iff] at hlen
      have hhead : call.isFirst ev = true := by simp [Call.isFirst, hev]
      rw [hkey, Option.bind_some] at hfree
      -- a later item carries the key too
      have hlater : ∃ item ∈ evs.zip pes, call.isFirst item.1 = true := by
        obtain ⟨i, hi, rfl⟩ := List.mem_iff_getElem.1 hev'
        have hi' : i < (evs.zip pes).length := by
          rw [List.length_zip]
          simp only [List.tail_cons] at hi
          omega
        exact ⟨(evs.zip pes)[i], List.getElem_mem hi', by rw [List.getElem_zip]; exact hsame⟩
      obtain ⟨db', n, hins, hrows⟩ := insertAll_until hkey hlater
        { db with events := db.events ++ [.of pe db.nextSeq (some key)], nextSeq := db.nextSeq + 1 }
        ⟨_, List.mem_append_right _ (List.mem_singleton_self _), rfl⟩
      have hcut : call.untilRepeat ((ev, pe) :: evs.zip pes) =
          (ev, pe) :: (evs.zip pes).takeWhile fun item => !call.isFirst item.1 := rfl
      simp only [List.zip_cons_cons, insertAll, insertRow, insertKey_eq, hhead, if_true, hkey, Option.bind_some, hfree, hins]
      refine ⟨db', n, rfl, ?_, ?_⟩
      · rw [hrows, hcut, rowsFrom_cons, insertKey_eq, hhead, if_pos rfl, hkey, List.append_assoc]
        rfl
      · have hshort : ((evs.zip pes).takeWhile fun item => !call.isFirst item.1).length < (evs.zip pes).length := by
          refine Nat.lt_of_le_of_ne (List.takeWhile_sublist _).length_le fun he => ?_
          obtain ⟨item, hi, hif⟩ := hlater
          have hall := (List.takeWhile_prefix fun item : EventObj × PreparedEvent => !call.isFirst item.1).eq_of_length he
          rw [← hall] at hi
          have := List.mem_takeWhile_imp hi
          rw [hif] at this
          cases this
        rw [hcut, List.length_cons, List.length_cons]
        rw [List.length_zip] at hshort
        omega

namespace Store

variable {σ : Type}

/-- A call that is not cut short changes nothing, or it returns with the whole batch committed. -/
theorem append_whole {t : Store σ} {call : Call} (h : ¬ CutShort t call noEffects) : OneRowEach t call (t.append call) := by
  unfold append
  split
  · exact ⟨rfl, rfl, rfl, rfl⟩
  · split
    · rename_i existing hk
      obtain ⟨key, hkey, hseq⟩ := Option.bind_eq_some_iff.1 hk
      exact .inl ⟨⟨key, hkey, hseq⟩, rfl, rfl, rfl, rfl⟩
    · rename_i hfree
      split
      · exact ⟨rfl, rfl, rfl, rfl⟩
      · rename_i htail
        split
        · exact ⟨rfl, rfl, rfl, rfl⟩
        · rename_i prepared hp
          obtain ⟨db', seqs, hins⟩ := insertAll_fresh prepared hfree
            fun hne hr => h ⟨⟨hne, hfree, hr⟩, htail, ⟨prepared, hp⟩, _, rfl⟩
          obtain ⟨hseqs, hdb⟩ := insertAll_ok hins
          have hlen : (call.events.zip prepared).length = call.events.length := by
            rw [List.length_zip, prepareAll_length hp, Nat.min_self]
          have hstate : db'.state = t.ledger.state := by rw [hdb]
          rw [hins]
          dsimp only
          split
          · exact ⟨rfl, rfl, rfl, rfl⟩
          · rename_i state htier
            refine .inr ⟨prepared, seqs, hp, by rw [hseqs, hlen], ?_, by rw [← hstate]; exact htier, rfl, rfl⟩
            rw [hdb, hseqs]
            rfl

/-- A call that is cut short returns with the rows before the repeat. -/
theorem append_cut {t : Store σ} {call : Call} (hr : reusesKey t.ledger call)
    (htail : checkTail t.ledger.events call.expectedVersion = .ok ()) {prepared : List PreparedEvent}
    (hp : prepareAll call.events = .ok prepared) :
    ∃ db' existing, t.append call = ({ t with ledger := db' }, .ok ⟨existing, existing⟩) ∧
      db'.events = t.ledger.events ++ rowsFrom call t.ledger.nextSeq (call.untilRepeat (call.events.zip prepared)) ∧
      db'.events.length < t.ledger.events.length + call.events.length := by
  obtain ⟨db', existing, hins, hrows, hshort⟩ := insertAll_reused hr hp
  have hne : call.events.isEmpty = false := by
    obtain ⟨-, -, ev, hev, -⟩ := hr
    cases he : call.events with
    | nil => rw [he] at hev; cases hev
    | cons _ _ => rfl
  refine ⟨db', existing, ?_, hrows, ?_⟩
  · unfold append
    simp [hne, hr.2.1, htail, hp, hins]
  · have hlen := congrArg List.length (rowsFrom_seq call (call.untilRepeat (call.events.zip prepared)) t.ledger.nextSeq)
    rw [List.length_map, List.length_range'] at hlen
    rw [hrows, List.length_append, hlen]
    omega

/-- Fewer rows than events are neither all of the batch nor the commit of a known key. -/
theorem not_oneRowEach {t t' : Store σ} {call : Call} {result : CommitResult} (hr : reusesKey t.ledger call)
    (hlen : t'.ledger.events.length < t.ledger.events.length + call.events.length) : ¬ OneRowEach t call (t', .ok result) := by
  rintro (hk | ⟨prepared, seqs, hw⟩)
  · obtain ⟨key, hkey, hseq⟩ := hk.key
    have hfree := hr.2.1
    rw [hkey, Option.bind_some, hseq] at hfree
    cases hfree
  · have hev := congrArg List.length hw.events
    have hp := prepareAll_length hw.valid
    simp only [List.length_append, rowsAt, List.length_zipWith, List.length_zip, hp, hw.each, List.length_range', Nat.min_self] at hev
    omega

theorem append_iff (t : Store σ) (call : Call) : OneRowEach t call (t.append call) ↔ ¬ CutShort t call noEffects := by
  constructor
  · rintro hone ⟨hr, htail, ⟨prepared, hp⟩, -⟩
    obtain ⟨db', existing, hout, -, hlen⟩ := append_cut hr htail hp
    rw [hout] at hone
    exact not_oneRowEach hr hlen hone
  · exact append_whole

/-- Side effects that do not raise leave what the append committed. -/
theorem OneRowEach.withOther {t t' : Store σ} {call : Call} {result : CommitResult} (h : OneRowEach t call (t', .ok result))
    (other : σ) : OneRowEach t call ({ t' with other := other }, .ok result) := by
  rcases h with hk | ⟨prepared, seqs, hw⟩
  · exact .inl ⟨hk.key, hk.token, hk.events, hk.state, hk.mirror⟩
  · exact .inr ⟨prepared, seqs, hw.valid, hw.each, hw.events, hw.state, hw.mirror, hw.result⟩

theorem completeAndAppend_iff (t : Store σ) (call : Call) (sideEffects : Store σ → Except PyError σ) :
    OneRowEach t { call with expectedVersion := none } (t.completeAndAppend call sideEffects) ↔
      ¬ CutShort t { call with expectedVersion := none } sideEffects := by
  have happ := append_iff t { call with expectedVersion := none }
  unfold completeAndAppend CutShort
  unfold CutShort at happ
  generalize hres : t.append { call with expectedVersion := none } = res at happ
  obtain ⟨t', e | result⟩ := res
  · -- the append raises
    refine iff_of_true (happ.2 ?_) ?_ <;> rintro ⟨hr, htail, ⟨prepared, hp⟩, -⟩ <;>
    · obtain ⟨_, _, hout, -⟩ := append_cut hr htail hp
      rw [hres] at hout
      cases hout
  · dsimp only
    cases hs : sideEffects t' with
    | error e => exact iff_of_true ⟨rfl, rfl, rfl, rfl⟩ (by rintro ⟨-, -, -, other, ho⟩; cases ho)
    | ok other =>
      constructor
      · rintro hone ⟨hr, htail, ⟨prepared, hp⟩, -⟩
        obtain ⟨db', existing, hout, -, hlen⟩ := append_cut hr htail hp
        rw [hres] at hout
        cases hout
        exact not_oneRowEach hr hlen hone
      · intro hcut
        exact (happ.2 fun hc => hcut ⟨hc.1, hc.2.1, hc.2.2.1, other, rfl⟩).withOther other

/-- **A call commits a row for each of its events with all their deltas, or
nothing, exactly when it is not cut short**: for `append` and for
`complete_and_append`, over every prior store. -/
theorem rows_whole_iff (t : Store σ) (call : Call) (sideEffects : Store σ → Except PyError σ) :
    (OneRowEach t call (t.append call) ↔ ¬ CutShort t call noEffects) ∧
    (OneRowEach t { call with expectedVersion := none } (t.completeAndAppend call sideEffects) ↔
      ¬ CutShort t { call with expectedVersion := none } sideEffects) :=
  ⟨append_iff t call, completeAndAppend_iff t call sideEffects⟩

/-- A batch that holds one event object twice, under a key. -/
def twice : Call where
  events := [⟨0, { eventType := .Locked, payload := [("entity_ref", .str "e")] }⟩,
    ⟨0, { eventType := .Locked, payload := [("entity_ref", .str "e")] }⟩]
  idempotencyKey := some "00000000-0000-0000-0000-000000000001"

/-- It returns with one row and no delta. -/
theorem twice_cut_short : ¬ ∀ (t : Store Unit) (call : Call), OneRowEach t call (t.append call) := by
  intro h
  rcases h { other := () } twice with hk | ⟨prepared, seqs, hw⟩
  · obtain ⟨key, -, hseq⟩ := hk.key
    cases hseq
  · have hlen := congrArg List.length hw.events
    rw [List.length_append, rowsAt, List.length_zipWith, List.length_zip, prepareAll_length hw.valid, hw.each, List.length_range'] at hlen
    exact absurd hlen (by decide)

end Store

end Umd.Ledger
