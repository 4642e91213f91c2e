import Umd.Lib.Steps
import Umd.Storage.InlineFold
/-!
# Concurrent appends

Any number of `append` transactions under read committed: transaction `i` runs
`calls i`, and a step takes one of them one statement further, or aborts it. A
statement sees what is committed and what its own transaction wrote; the only
waits are those of the unique idempotency key and of the rows an upsert locks.
`Moves` says once what a step can do, and the invariants are read off it.
-/

namespace Umd.Ledger

open Umd.Lib Umd.Events Umd.Reducer

/-- Where a transaction stands. -/
inductive Phase where
  | start
  /-- No committed row has the key. -/
  | keyRead
  /-- The tail was as expected; `rows` are inserted, `todo` is not. -/
  | inserting (todo : List (EventObj × PreparedEvent)) (rows : List EventRow)
  /-- The default of the `seq` column is evaluated before the insert looks at the key. -/
  | drawn (seq : Nat) (ev : EventObj) (pe : PreparedEvent) (todo : List (EventObj × PreparedEvent)) (rows : List EventRow)
  /-- The affected rows are read and the batch is folded over them. -/
  | folded (rows : List EventRow) (state : CurrentReducedState)
  | upserted (rows : List EventRow) (state : CurrentReducedState)
  /-- An insert found its key taken: the call returns without a delta. -/
  | deduped (rows : List EventRow) (existing : Nat)
  | committed (rows : List EventRow) (result : CommitResult)
  | raised (e : AppendError)
  | aborted

/-- The committed tables, and the transactions with their locks. -/
structure Sys extends Db where
  tx : Nat → Phase := fun _ => .start
  /-- The transaction whose uncommitted row has the key. -/
  keyLocks : Uuid → Option Nat := fun _ => none
  /-- The transaction that has upserted the row of `current_state`. -/
  rowLocks : Key → Option Nat := fun _ => none

inductive Act where
  | next (i : Nat)
  | abort (i : Nat)

namespace Phase

/-- The rows the transaction has inserted. -/
def rows : Phase → List EventRow
  | .inserting _ rows => rows
  | .drawn _ _ _ _ rows => rows
  | .folded rows _ => rows
  | .upserted rows _ => rows
  | .deduped rows _ => rows
  | .committed rows _ => rows
  | _ => []

/-- The seqs the transaction has drawn for its rows. -/
def held : Phase → List Nat
  | .drawn seq _ _ _ rows => rows.map (·.seq) ++ [seq]
  | p => p.rows.map (·.seq)

/-- Past the tail check and not over. -/
def inFlight : Phase → Bool
  | .inserting .. | .drawn .. | .folded .. | .upserted .. | .deduped .. => true
  | _ => false

/-- The rows the transaction has committed. -/
def log : Phase → List EventRow
  | .committed rows _ => rows
  | _ => []

/-- Over. -/
def isOver : Phase → Bool
  | .committed .. | .raised _ | .aborted => true
  | _ => false

end Phase

namespace Sys

def enter (s : Sys) (i : Nat) (p : Phase) : Sys := { s with tx := upd s.tx i p }

/-- The end of a transaction releases its locks. -/
def finish (s : Sys) (i : Nat) (p : Phase) : Sys where
  toDb := s.toDb
  tx := upd s.tx i p
  keyLocks := fun key => (s.keyLocks key).filter (· ≠ i)
  rowLocks := fun k => (s.rowLocks k).filter (· ≠ i)

/-- The rows of `current_state` a folded state upserts. -/
def upserts (call : Call) (state : CurrentReducedState) : List Key :=
  (loadedKeys ((call.events.map (·.event)).filter (·.isSemantic))).filter fun k =>
    (state.rows k).any fun row => !isUnlockedMarker row

/-- One insert: it waits for a transaction that has the key in flight. -/
def insert (call : Call) (s : Sys) (i : Nat) (seq : Nat) (ev : EventObj) (pe : PreparedEvent)
    (todo : List (EventObj × PreparedEvent)) (rows : List EventRow) : Option Sys :=
  let inserted := Phase.inserting todo (rows ++ [.of pe seq (insertKey call ev)])
  match insertKey call ev with
  | none => some (s.enter i inserted)
  | some key =>
    match seqOfKey (s.events ++ rows) key with
    | some existing => some (s.enter i (.deduped rows existing))
    | none =>
      match s.keyLocks key with
      | some _ => none
      | none => some { s.enter i inserted with keyLocks := upd s.keyLocks key (some i) }

/-- The next statement of transaction `i`. -/
def next (call : Call) (s : Sys) (i : Nat) : Option Sys :=
  match s.tx i with
  | .start =>
    if call.events.isEmpty then some (s.finish i (.raised .emptyBatch)) else
    match call.idempotencyKey.bind (seqOfKey s.events) with
    | some existing => some (s.finish i (.committed [] ⟨existing, existing⟩))
    | none => some (s.enter i .keyRead)
  | .keyRead =>
    match checkTail s.events call.expectedVersion with
    | .error e => some (s.finish i (.raised e))
    | .ok () =>
      match prepareAll call.events with
      | .error e => some (s.finish i (.raised e))
      | .ok prepared => some (s.enter i (.inserting (call.events.zip prepared) []))
  | .inserting ((ev, pe) :: todo) rows =>
    some { s.enter i (.drawn s.nextSeq ev pe todo rows) with nextSeq := s.nextSeq + 1 }
  | .drawn seq ev pe todo rows => insert call s i seq ev pe todo rows
  | .inserting [] rows =>
    match foldBatch s.state (call.events.map (·.event)) (rows.map (·.seq)) with
    | .error e => some (s.finish i (.raised (.python e)))
    | .ok state => some (s.enter i (.folded rows state))
  | .folded rows state =>
    if (upserts call state).all fun k => (s.rowLocks k).all (· = i) then
      some { s.enter i (.upserted rows state) with
        rowLocks := fun k => if k ∈ upserts call state then some i else s.rowLocks k }
    else none
  | .upserted rows state =>
    let first := (rows.map (·.seq)).headD 0
    some { s.finish i (.committed rows ⟨first, first⟩) with
      events := s.events ++ rows, state := persistDelta s.state state }
  | .deduped rows existing =>
    some { s.finish i (.committed rows ⟨existing, existing⟩) with events := s.events ++ rows }
  | .committed .. => none
  | .raised _ => none
  | .aborted => none

end Sys

variable {calls : Nat → Call}

/-- One step of the system. -/
def step (calls : Nat → Call) (s : Sys) : Act → Option Sys
  | .next i => s.next (calls i) i
  | .abort i => if (s.tx i).isOver then none else some (s.finish i .aborted)

/-! ## What a step can do -/

/-- Why a transaction ends without a row: it is aborted, it raises, or it finds its key in the log. -/
def Left (call : Call) (s : Sys) : Phase → Prop
  | .raised e => (e = .emptyBatch ∧ call.events = []) ∨ checkTail s.events call.expectedVersion = .error e ∨
      prepareAll call.events = .error e ∨ ∃ e', e = .python e'
  | .committed rows res => rows = [] ∧
      ∃ key n, call.idempotencyKey = some key ∧ seqOfKey s.events key = some n ∧ res = ⟨n, n⟩
  | .aborted => True
  | _ => False

/-- The step of transaction `i`, by what it does to the tables. -/
inductive Moves (call : Call) (s : Sys) (i : Nat) : Sys → Prop
  /-- The transaction ends and no table changes. -/
  | leave {p : Phase} (live : (s.tx i).isOver = false) (left : Left call s p) : Moves call s i (s.finish i p)
  | look (h : s.tx i = .start) (batch : call.events ≠ []) (fresh : call.idempotencyKey.bind (seqOfKey s.events) = none) :
      Moves call s i (s.enter i .keyRead)
  | check {prepared : List PreparedEvent} (h : s.tx i = .keyRead) (tail : checkTail s.events call.expectedVersion = .ok ())
      (prep : prepareAll call.events = .ok prepared) :
      Moves call s i (s.enter i (.inserting (call.events.zip prepared) []))
  | draw {ev : EventObj} {pe : PreparedEvent} {todo : List (EventObj × PreparedEvent)} {rows : List EventRow}
      (h : s.tx i = .inserting ((ev, pe) :: todo) rows) :
      Moves call s i { s.enter i (.drawn s.nextSeq ev pe todo rows) with nextSeq := s.nextSeq + 1 }
  | insert {seq : Nat} {ev : EventObj} {pe : PreparedEvent} {todo : List (EventObj × PreparedEvent)}
      {rows : List EventRow} (h : s.tx i = .drawn seq ev pe todo rows) {locks : Uuid → Option Nat}
      (free : ∀ key, insertKey call ev = some key → seqOfKey (s.events ++ rows) key = none ∧ s.keyLocks key = none)
      (taken : ∀ key, locks key = if insertKey call ev = some key then some i else s.keyLocks key) :
      Moves call s i { s.enter i (.inserting todo (rows ++ [.of pe seq (insertKey call ev)])) with keyLocks := locks }
  | dedup {seq existing : Nat} {ev : EventObj} {pe : PreparedEvent} {todo : List (EventObj × PreparedEvent)}
      {rows : List EventRow} {key : Uuid} (h : s.tx i = .drawn seq ev pe todo rows) (carries : insertKey call ev = some key)
      (found : seqOfKey (s.events ++ rows) key = some existing) :
      Moves call s i (s.enter i (.deduped rows existing))
  | load {rows : List EventRow} {state : CurrentReducedState} (h : s.tx i = .inserting [] rows)
      (fold : foldBatch s.state (call.events.map (·.event)) (rows.map (·.seq)) = .ok state) :
      Moves call s i (s.enter i (.folded rows state))
  | upsert {rows : List EventRow} {state : CurrentReducedState} (h : s.tx i = .folded rows state)
      (locks : Key → Option Nat) :
      Moves call s i { s.enter i (.upserted rows state) with rowLocks := locks }
  | commit {rows : List EventRow} {state : CurrentReducedState} {first : Nat} (h : s.tx i = .upserted rows state)
      (token : first = (rows.map (·.seq)).headD 0) :
      Moves call s i { s.finish i (.committed rows ⟨first, first⟩) with
        events := s.events ++ rows, state := persistDelta s.state state }
  | settle {rows : List EventRow} {existing : Nat} (h : s.tx i = .deduped rows existing) :
      Moves call s i { s.finish i (.committed rows ⟨existing, existing⟩) with events := s.events ++ rows }

theorem insert_moves {call : Call} {s s' : Sys} {i seq : Nat} {ev : EventObj} {pe : PreparedEvent}
    {todo : List (EventObj × PreparedEvent)} {rows : List EventRow} (ht : s.tx i = .drawn seq ev pe todo rows)
    (h : s.insert call i seq ev pe todo rows = some s') : Moves call s i s' := by
  unfold Sys.insert at h
  cases hk : insertKey call ev with
  | none =>
    simp only [hk, Option.some.injEq] at h
    subst h
    have hm := @Moves.insert call s i seq ev pe todo rows ht s.keyLocks (by simp [hk]) (by simp [hk])
    rw [hk] at hm
    exact hm
  | some key =>
    simp only [hk] at h
    split at h
    · cases h
      exact .dedup ht hk ‹_›
    · rename_i hfree
      split at h
      · cases h
      · rename_i hlock
        cases h
        have hm := @Moves.insert call s i seq ev pe todo rows ht (upd s.keyLocks key (some i))
          (fun key' he => by cases hk.symm.trans he; exact ⟨hfree, hlock⟩)
          (fun key' => by
            rw [hk, upd]
            by_cases he : key' = key
            · simp [he]
            · simp [he, Ne.symm he])
        rw [hk] at hm
        exact hm

theorem next_moves {call : Call} {s s' : Sys} {i : Nat} (h : s.next call i = some s') : Moves call s i s' := by
  unfold Sys.next at h
  split at h
  case h_1 ht =>
    split at h
    · rename_i hempty
      cases h; exact .leave (by rw [ht]; rfl) (.inl ⟨rfl, by simpa using hempty⟩)
    · rename_i hne
      split at h
      · rename_i existing hfound
        cases h
        obtain ⟨key, hkey, hseq⟩ := Option.bind_eq_some_iff.1 hfound
        exact .leave (by rw [ht]; rfl) ⟨rfl, key, existing, hkey, hseq, rfl⟩
      · cases h; exact .look ht (by simpa using hne) ‹_›
  case h_2 ht =>
    split at h
    · cases h; exact .leave (by rw [ht]; rfl) (.inr (.inl ‹_›))
    · split at h
      · cases h; exact .leave (by rw [ht]; rfl) (.inr (.inr (.inl ‹_›)))
      · cases h; exact .check ht ‹_› ‹_›
  case h_3 ht => cases h; exact .draw ht
  case h_4 ht => exact insert_moves ht h
  case h_5 ht =>
    split at h
    · cases h; exact .leave (by rw [ht]; rfl) (.inr (.inr (.inr ⟨_, rfl⟩)))
    · cases h; exact .load ht ‹_›
  case h_6 ht =>
    split at h
    · cases h; exact .upsert ht _
    · cases h
  case h_7 ht => cases h; exact .commit ht rfl
  case h_8 ht => cases h; exact .settle ht
  all_goals cases h

/-- Every step is a move of some transaction. -/
theorem step_moves {s s' : Sys} {a : Act} (h : step calls s a = some s') : ∃ i, Moves (calls i) s i s' := by
  cases a with
  | next i => exact ⟨i, next_moves h⟩
  | abort i =>
    simp only [step] at h
    split at h
    · cases h
    · rename_i ho
      cases h
      exact ⟨i, .leave (Bool.eq_false_iff.2 ho) trivial⟩

theorem Left.isOver {call : Call} {s : Sys} {p : Phase} (h : Left call s p) : p.isOver = true := by
  cases p <;> first | rfl | cases h

theorem Left.inFlight {call : Call} {s : Sys} {p : Phase} (h : Left call s p) : p.inFlight = false := by
  cases p <;> first | rfl | cases h

theorem Left.held {call : Call} {s : Sys} {p : Phase} (h : Left call s p) : p.held = [] ∧ p.log = [] := by
  cases p with
  | committed rows res => rw [h.1]; exact ⟨rfl, rfl⟩
  | raised | aborted => exact ⟨rfl, rfl⟩
  | _ => cases h

namespace Moves

variable {call : Call} {s s' : Sys} {i : Nat}

theorem live (h : Moves call s i s') : (s.tx i).isOver = false := by
  cases h with
  | leave h => exact h
  | look h | check h | draw h | insert h | dedup h | load h | upsert h | commit h | settle h => rw [h]; rfl

/-- The other transactions stand where they stood. -/
theorem other (h : Moves call s i s') {j : Nat} (hj : j ≠ i) : s'.tx j = s.tx j := by
  cases h <;> exact upd_ne _ _ hj

/-- What a step commits is appended to the log. -/
theorem events (h : Moves call s i s') : s'.events = s.events ++ (s'.tx i).log := by
  cases h with
  | leave _ left => simp [Sys.finish, left.held.2]
  | _ => simp [Sys.enter, Sys.finish, Phase.log]

theorem nextSeq_le (h : Moves call s i s') : s.nextSeq ≤ s'.nextSeq := by
  cases h <;> first | exact Nat.le_refl _ | exact Nat.le_succ _

end Moves

/-- A step leaves the stored rows, or it ends its transaction. -/
theorem Moves.state_kept {call : Call} {s s' : Sys} {i : Nat} (h : Moves call s i s') :
    s'.state = s.state ∨ (s'.tx i).isOver = true := by
  cases h with
  | commit => exact .inr (by simp [Sys.finish, Phase.isOver])
  | _ => exact .inl rfl

/-- Steps of one transaction among others that have not started, over the stored rows it found. -/
theorem run_alone {ok : Sys → Act → Prop} {i : Nat} {t : Table}
    (hok : ∀ s, (∀ j, j ≠ i → s.tx j = .start) → (s.tx i).isOver = false → s.state = t → ok s (.next i)) :
    ∀ {n : Nat} {s s' : Sys}, (∀ j, j ≠ i → s.tx j = .start) → s.state = t ∨ (s.tx i).isOver = true →
      runAll (step calls) s (List.replicate n (.next i)) = some s' → Run (step calls) ok s s' := by
  intro n
  induction n with
  | zero => intro s s' _ _ h; cases h; exact .refl
  | succ n ih =>
    intro s s' hs ht h
    obtain ⟨s₁, h₁, hr⟩ := Option.bind_eq_some_iff.1 h
    have hm : Moves (calls i) s i s₁ := next_moves h₁
    have hlive := hm.live
    have hst : s.state = t := ht.resolve_right (by simp [hlive])
    have hrest := ih (fun j hj => by rw [hm.other hj]; exact hs j hj) (hm.state_kept.imp_left fun he => he.trans hst) hr
    exact Run.trans (.step .refl (hok s hs hlive hst) h₁) hrest

/-! ## The rows of a batch -/

/-- `rows` are the first events of an accepted batch, and `todo` is the rest of it. -/
structure Inserted (call : Call) (todo : List (EventObj × PreparedEvent)) (rows : List EventRow) : Prop where
  batch : call.events ≠ []
  done : ∃ prepared items, prepareAll call.events = .ok prepared ∧ call.events.zip prepared = items ++ todo ∧
    (rows.map (·.seq)).length = items.length ∧ rows = rowsAt call items (rows.map (·.seq))

theorem Inserted.none {call : Call} {prepared : List PreparedEvent} (hne : call.events ≠ [])
    (h : prepareAll call.events = .ok prepared) : Inserted call (call.events.zip prepared) [] :=
  ⟨hne, prepared, [], h, rfl, rfl, rfl⟩

theorem Inserted.next {call : Call} {ev : EventObj} {pe : PreparedEvent} {todo : List (EventObj × PreparedEvent)}
    {rows : List EventRow} (h : Inserted call ((ev, pe) :: todo) rows) (seq : Nat) :
    Inserted call todo (rows ++ [.of pe seq (insertKey call ev)]) := by
  obtain ⟨hne, prepared, items, hp, hz, hlen, hrows⟩ := h
  refine ⟨hne, prepared, items ++ [(ev, pe)], hp, by simp [hz], by simpa using hlen, ?_⟩
  rw [List.map_append, rowsAt_append call hlen, ← hrows]
  rfl

/-- Rows of a whole batch are there, and replay as its events. -/
theorem Inserted.whole {call : Call} {rows : List EventRow} (h : Inserted call [] rows) :
    rows ≠ [] ∧ ∃ prepared, prepareAll call.events = .ok prepared ∧ (rows.map (·.seq)).length = call.events.length ∧
      rows = rowsAt call (call.events.zip prepared) (rows.map (·.seq)) := by
  obtain ⟨hne, prepared, items, hp, hz, hlen, hrows⟩ := h
  rw [List.append_nil] at hz
  subst hz
  rw [zip_length hp] at hlen
  refine ⟨?_, prepared, hp, hlen, hrows⟩
  rintro rfl
  exact hne (List.length_eq_zero_iff.1 hlen.symm)

/-- What a phase says of its rows. -/
def Phase.Shaped (call : Call) : Phase → Prop
  | .keyRead => call.events ≠ []
  | .inserting todo rows => Inserted call todo rows
  | .drawn _ ev pe todo rows => Inserted call ((ev, pe) :: todo) rows
  | .folded rows _ => Inserted call [] rows
  | .upserted rows _ => Inserted call [] rows
  | .deduped rows _ => ∃ todo, Inserted call todo rows
  | .committed rows _ => rows = [] ∨ ∃ todo, Inserted call todo rows
  | _ => True

/-- The seqs a phase holds increase, and all lie below `n`. -/
structure Phase.Ok (call : Call) (n : Nat) (p : Phase) : Prop where
  range : ∀ m ∈ p.held, 0 < m ∧ m < n
  sorted : p.held.Pairwise (· < ·)
  shaped : p.Shaped call

theorem Phase.Ok.mono {call : Call} {n n' : Nat} {p : Phase} (h : p.Ok call n) (hn : n ≤ n') : p.Ok call n' :=
  ⟨fun m hm => ⟨(h.range m hm).1, Nat.lt_of_lt_of_le (h.range m hm).2 hn⟩, h.sorted, h.shaped⟩

/-- A phase that holds the same seqs. -/
theorem Phase.Ok.same {call : Call} {n : Nat} {p p' : Phase} (h : p.Ok call n) (hh : p'.held = p.held)
    (hs : p'.Shaped call) : p'.Ok call n := ⟨by rw [hh]; exact h.range, by rw [hh]; exact h.sorted, hs⟩

theorem Phase.Ok.empty {call : Call} {n : Nat} {p : Phase} (hh : p.held = []) (hs : p.Shaped call) : p.Ok call n :=
  ⟨by simp [hh], by simp [hh], hs⟩

/-- The transaction that moves keeps its rows in order. -/
theorem Moves.ok {call : Call} {s s' : Sys} {i : Nat} (h : Moves call s i s') (hp : 0 < s.nextSeq)
    (ho : (s.tx i).Ok call s.nextSeq) : (s'.tx i).Ok call s'.nextSeq := by
  cases h with
  | @leave p _ left =>
    rw [show (s.finish i p).tx i = p from upd_self ..]
    refine .empty left.held.1 ?_
    cases p with
    | committed rows res => exact .inl left.1
    | raised | aborted => trivial
    | _ => cases left
  | look h batch =>
    rw [show (s.enter i _).tx i = _ from upd_self ..]
    exact .empty rfl batch
  | check h _ prep =>
    rw [show (s.enter i _).tx i = _ from upd_self ..]
    rw [h] at ho
    exact .empty rfl (.none ho.shaped prep)
  | draw h =>
    rw [h] at ho
    simp only [Sys.enter, upd_self]
    refine ⟨fun m hm => ?_, ?_, ho.shaped⟩
    · rcases List.mem_append.1 hm with hm | hm
      · exact ⟨(ho.range m hm).1, Nat.lt_succ_of_lt (ho.range m hm).2⟩
      · rw [List.mem_singleton.1 hm]
        exact ⟨hp, Nat.lt_succ_self _⟩
    · refine List.pairwise_append.2 ⟨ho.sorted, List.pairwise_singleton _ _, fun a ha b hb => ?_⟩
      rw [List.mem_singleton.1 hb]
      exact (ho.range a ha).2
  | insert h =>
    rw [h] at ho
    simp only [Sys.enter, upd_self]
    exact ho.same (by simp [Phase.held, Phase.rows, EventRow.of]) (Inserted.next ho.shaped _)
  | dedup h =>
    rw [h] at ho
    simp only [Sys.enter, upd_self]
    refine ⟨fun m hm => ho.range m (List.mem_append_left _ hm), ?_, _, ho.shaped⟩
    exact (List.pairwise_append.1 ho.sorted).1
  | load h | upsert h =>
    rw [h] at ho
    simp only [Sys.enter, upd_self]
    exact ho.same rfl ho.shaped
  | commit h =>
    rw [h] at ho
    simp only [Sys.finish, upd_self]
    exact ho.same rfl (.inr ⟨[], ho.shaped⟩)
  | settle h =>
    rw [h] at ho
    simp only [Sys.finish, upd_self]
    exact ho.same rfl (.inr ho.shaped)

/-- A transaction in flight holds what it held, and a seq it draws is the next one. -/
theorem Moves.held_cases {call : Call} {s s' : Sys} {i : Nat} (h : Moves call s i s') (hf : (s'.tx i).inFlight = true) {m : Nat} (hm : m ∈ (s'.tx i).held) :
    (s.tx i).inFlight = true ∧ (m ∈ (s.tx i).held ∨ m = s.nextSeq) := by
  cases h with
  | @leave p _ left =>
    rw [show (s.finish i p).tx i = p from upd_self .., left.inFlight] at hf
    cases hf
  | look | check => simp [Sys.enter, Phase.held, Phase.rows] at hm
  | draw ht =>
    rw [ht]
    simp only [Sys.enter, upd_self] at hm
    rcases List.mem_append.1 hm with hm | hm
    · exact ⟨rfl, .inl hm⟩
    · exact ⟨rfl, .inr (List.mem_singleton.1 hm)⟩
  | insert ht =>
    rw [ht]
    simp only [Sys.enter, upd_self, Phase.held, Phase.rows, List.map_append] at hm
    exact ⟨rfl, .inl hm⟩
  | dedup ht =>
    rw [ht]
    simp only [Sys.enter, upd_self] at hm
    exact ⟨rfl, .inl (List.mem_append_left _ hm)⟩
  | load ht | upsert ht =>
    rw [ht]
    simp only [Sys.enter, upd_self] at hm
    exact ⟨rfl, .inl hm⟩
  | commit | settle => simp [Sys.finish, Phase.inFlight] at hf

/-- The log holds the rows of the committed transactions, and every seq drawn lies below the next one. -/
structure SeqsOk (calls : Nat → Call) (s : Sys) : Prop where
  start : 0 < s.nextSeq
  tx : ∀ i, (s.tx i).Ok (calls i) s.nextSeq
  log : ∀ r, r ∈ s.events ↔ ∃ i, r ∈ (s.tx i).log

theorem SeqsOk.init : SeqsOk calls {} :=
  ⟨Nat.one_pos, fun _ => .empty rfl trivial, fun r => by simp [Phase.log]⟩

theorem log_of_live {p : Phase} (h : p.isOver = false) : p.log = [] := by
  cases p <;> first | rfl | cases h

theorem inFlight_live {p : Phase} (h : p.inFlight = true) : p.isOver = false := by
  cases p <;> first | rfl | cases h

theorem log_rows {p : Phase} {r : EventRow} (h : r ∈ p.log) : p.log = p.rows := by
  cases p <;> first | rfl | cases h

/-- The rows of a transaction in flight are held. -/
theorem rows_held {p : Phase} {r : EventRow} (h : r ∈ p.rows) : r.seq ∈ p.held := by
  cases p <;> first | exact List.mem_map_of_mem h | exact List.mem_append_left _ (List.mem_map_of_mem h)

theorem SeqsOk.moves {s s' : Sys} {i : Nat} (h : SeqsOk calls s) (hm : Moves (calls i) s i s') : SeqsOk calls s' where
  start := Nat.lt_of_lt_of_le h.start hm.nextSeq_le
  tx j := by
    by_cases hj : j = i
    · subst hj; exact hm.ok h.start (h.tx j)
    · rw [hm.other hj]; exact (h.tx j).mono hm.nextSeq_le
  log r := by
    rw [hm.events, List.mem_append, h.log]
    constructor
    · rintro (⟨j, hj⟩ | hr)
      · refine ⟨j, ?_⟩
        by_cases he : j = i
        · subst he; rw [log_of_live hm.live] at hj; cases hj
        · rw [hm.other he]; exact hj
      · exact ⟨i, hr⟩
    · rintro ⟨j, hj⟩
      by_cases he : j = i
      · subst he; exact .inr hj
      · rw [hm.other he] at hj; exact .inl ⟨j, hj⟩

theorem seqsOk_run {ok : Sys → Act → Prop} {s : Sys} (h : Run (step calls) ok {} s) : SeqsOk calls s := by
  refine h.inv (SeqsOk calls) .init fun s a s' hi _ hs => ?_
  obtain ⟨i, hm⟩ := step_moves hs
  exact hi.moves hm

/-- A committed row has a seq that its transaction drew. -/
theorem log_held {p : Phase} {r : EventRow} (h : r ∈ p.log) : r.seq ∈ p.held := by
  cases p with
  | committed rows res => exact List.mem_map_of_mem h
  | _ => cases h

theorem SeqsOk.below {s : Sys} (h : SeqsOk calls s) {r : EventRow} (hr : r ∈ s.events) : 0 < r.seq ∧ r.seq < s.nextSeq := by
  obtain ⟨i, hi⟩ := (h.log r).1 hr
  exact (h.tx i).range _ (log_held hi)

end Umd.Ledger
