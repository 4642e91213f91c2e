import Umd.Storage.SeqOrder
import Umd.Storage.Transactions
/-!
# Tier-0 under concurrent appends

A transaction folds its batch over the rows it reads and upserts what it
folded, without a lock from the read to the upsert. The stored rows are the
fold of the log in seq order as long as, at every such read, no conflicting
transaction in flight holds a lower seq (`concurrent_eq_rebuild`): then
conflicting transactions read and commit in the order of their seqs. Without
that an update is lost (`lost_override`).
-/

namespace Umd.Ledger

open Umd.Lib Umd.Events Umd.Reducer Umd.Projections

variable {calls : Nat → Call}

/-- The events of a batch that fold. -/
def semanticOf (call : Call) : List SemanticEvent := (call.events.map (·.event)).filter (·.isSemantic)

/-- The rows a call may change. -/
def changes (call : Call) : List Key := (semanticOf call).flatMap writes

/-- One of the calls may change a row that the other reads. -/
def Conflict (call call' : Call) : Prop :=
  ∃ k, (k ∈ changes call ∧ k ∈ loadedKeys (semanticOf call')) ∨ (k ∈ changes call' ∧ k ∈ loadedKeys (semanticOf call))

theorem Conflict.symm {call call' : Call} (h : Conflict call call') : Conflict call' call := by
  obtain ⟨k, h⟩ := h
  exact ⟨k, h.symm⟩

/-- What the read of the affected rows needs: no conflicting transaction in
flight has drawn a seq below those of the batch; no row read says `LOCKED` of an
entity that is not locked; and an entity the batch leaves unlocked has no stored
marker, nor an event of the batch that changes the marker row. -/
structure ReadOk (calls : Nat → Call) (s : Sys) (i : Nat) (rows : List EventRow) : Prop where
  alone : ∀ j, j ≠ i → (s.tx j).inFlight = true → Conflict (calls i) (calls j) →
    ∀ r ∈ rows, ∀ m ∈ (s.tx j).held, r.seq < m
  stale : NoStaleLock s.state ((calls i).events.map (·.event))
  unlocks : ∀ ref, endsUnlocked ((calls i).events.map (·.event)) ref = true →
    s.state (ref, lockPredicate) = none ∧ ∀ ev ∈ semanticOf (calls i), changeTarget ev ≠ some (ref, lockPredicate)

/-- The condition on a step: on the read of the affected rows, and that no later
object of a batch is the first one again once its key is inserted. -/
def InOrder (calls : Nat → Call) (s : Sys) : Act → Prop
  | .abort _ => True
  | .next i =>
    match s.tx i with
    | .inserting [] rows => ReadOk calls s i rows
    | .drawn _ ev _ _ rows => rows ≠ [] → insertKey (calls i) ev = none
    | _ => True

/-- The transaction that takes the step. -/
def Act.tx : Act → Nat
  | .next i => i
  | .abort i => i

/-- What a step of `call` may do to the stored rows: none goes back to a lower
seq, and a row a user has overridden changes only where the batch overrides it. -/
def KeepsRows (call : Call) (t t' : Table) : Prop :=
  ∀ k r, t k = some r → ∃ r', t' k = some r' ∧ r.seq ≤ r'.seq ∧
    (r.authority = .str userOverride → r' = r ∨ ∃ ev ∈ semanticOf call, k ∈ writes ev ∧ Overrides ev)

/-! ## The rows of a call -/

theorem prepareAll_zip {evs : List EventObj} {prepared : List PreparedEvent} (h : prepareAll evs = .ok prepared) :
    ∀ item ∈ evs.zip prepared, item.1.event.prepare = .ok item.2 := by
  induction evs generalizing prepared with
  | nil => intro item hi; simp at hi
  | cons ev evs ih =>
    obtain ⟨pe, ps, rfl, hpe, hps⟩ := prepareAll_cons h
    intro item hi
    rcases List.mem_cons.1 hi with rfl | hi
    · exact hpe
    · exact ih hps item hi

theorem mem_rowsAt {call : Call} {items : List (EventObj × PreparedEvent)} {seqs : List Nat} {r : EventRow}
    (h : r ∈ rowsAt call items seqs) : ∃ item ∈ items, ∃ n, r = .of item.2 n (insertKey call item.1) := by
  induction items generalizing seqs with
  | nil => cases h
  | cons item items ih =>
    cases seqs with
    | nil => cases h
    | cons n seqs =>
      rcases List.mem_cons.1 h with rfl | h
      · exact ⟨item, by simp, n, rfl⟩
      · obtain ⟨item', hm, m, he⟩ := ih h
        exact ⟨item', by simp [hm], m, he⟩

/-- A row of a call replays as an event of the call. -/
theorem Inserted.row {call : Call} {todo : List (EventObj × PreparedEvent)} {rows : List EventRow} {r : EventRow}
    (h : Inserted call todo rows) (hr : r ∈ rows) :
    WellTargeted (upcast r) ∧ ((upcast r).isSemantic = true → ∃ ev ∈ semanticOf call, WellTargeted ev ∧ writes (upcast r) = writes ev) := by
  obtain ⟨-, prepared, items, hp, hz, -, hrows⟩ := h
  rw [hrows] at hr
  obtain ⟨⟨ev, pe⟩, hm, n, rfl⟩ := mem_rowsAt hr
  have hzip : (ev, pe) ∈ call.events.zip prepared := by rw [hz]; exact List.mem_append_left _ hm
  have halike := upcast_alike (prepareAll_zip hp _ hzip) n (insertKey call ev)
  have hev : ev.event ∈ call.events.map (·.event) := List.mem_map_of_mem (List.of_mem_zip hzip).1
  have hw : WellTargeted ev.event := (prepareAll_accepted hp _ hev).wellTargeted
  refine ⟨halike.wellTargeted (hw.withSeq _), fun hs => ⟨ev.event, List.mem_filter.2 ⟨hev, ?_⟩, hw, halike.writes⟩⟩
  rw [SemanticEvent.isSemantic, halike.eventType] at hs
  exact hs

/-- Rows of two calls that depend on each other make the calls conflict. -/
theorem Depend.conflict {call call' : Call} {todo todo' : List (EventObj × PreparedEvent)} {rows rows' : List EventRow}
    {r r' : EventRow} (hd : Depend r r') (h : Inserted call todo rows) (h' : Inserted call' todo' rows') (hr : r ∈ rows)
    (hr' : r' ∈ rows') : Conflict call call' := by
  obtain ⟨hs, hs', k, hk⟩ := hd
  obtain ⟨ev, hev, hw, he⟩ := (h.row hr).2 hs
  obtain ⟨ev', hev', hw', he'⟩ := (h'.row hr').2 hs'
  have hacc : ∀ {call : Call} {todo : List (EventObj × PreparedEvent)} {rows : List EventRow}, Inserted call todo rows →
      ∀ e ∈ semanticOf call, WellTargeted e := by
    rintro call todo rows ⟨-, prepared, items, hp, -⟩ e he
    exact (prepareAll_accepted hp e (List.mem_filter.1 he).1).wellTargeted
  have hreads : ∀ {e e' : SemanticEvent}, writes e = writes e' → reads e = reads e' := fun h => by simp only [reads, h]
  rcases hk with ⟨hkw, hkr⟩ | ⟨hkw, hkr⟩
  · rw [he] at hkw
    rw [hreads he'] at hkr
    exact ⟨k, .inl ⟨List.mem_flatMap.2 ⟨ev, hev, hkw⟩, reads_loaded (hacc h') hev' hkr⟩⟩
  · rw [he'] at hkw
    rw [hreads he] at hkr
    exact ⟨k, .inr ⟨List.mem_flatMap.2 ⟨ev', hev', hkw⟩, reads_loaded (hacc h) hev hkr⟩⟩

theorem Phase.Ok.inserted {call : Call} {n : Nat} {p : Phase} (h : p.Ok call n) {r : EventRow} (hr : r ∈ p.rows) :
    ∃ todo, Inserted call todo p.rows := by
  have hs := h.shaped
  cases p with
  | inserting todo rows => exact ⟨todo, hs⟩
  | drawn m ev pe todo rows => exact ⟨_, hs⟩
  | folded rows state | upserted rows state => exact ⟨[], hs⟩
  | deduped rows existing => exact hs
  | committed rows res =>
    rcases hs with rfl | hs
    · cases hr
    · exact hs
  | _ => cases hr

/-! ## What a transaction has read -/

namespace Phase

/-- The folded state of a transaction past its read. -/
def fold : Phase → Option CurrentReducedState
  | .folded _ state => some state
  | .upserted _ state => some state
  | _ => none

end Phase

theorem fold_inFlight {p : Phase} (h : p.fold.isSome) : p.inFlight = true := by
  cases p <;> first | rfl | cases h

/-- The fold of the batch over the current rows is the one the transaction made. -/
structure Ready (call : Call) (t : Table) (rows : List EventRow) (state : CurrentReducedState) : Prop where
  fold : foldBatch t (call.events.map (·.event)) (rows.map (·.seq)) = .ok state
  stale : NoStaleLock t (call.events.map (·.event))
  unlocks : ∀ ref, endsUnlocked (call.events.map (·.event)) ref = true →
    t (ref, lockPredicate) = none ∧ ∀ ev ∈ semanticOf call, changeTarget ev ≠ some (ref, lockPredicate)

theorem endsUnlocked_loaded {call : Call} {ref : String} (h : endsUnlocked (call.events.map (·.event)) ref = true) :
    (ref, lockPredicate) ∈ loadedKeys (semanticOf call) := by
  have hex : ∀ (evs : List SemanticEvent) (left : Bool), evs.foldl (unlockStep ref) left = true → left = true ∨
      ∃ ev ∈ evs, isLockEvent ev.eventType = true ∧ entityRefOf ev = some ref := by
    intro evs
    induction evs with
    | nil => exact fun left h => .inl h
    | cons ev evs ih =>
      intro left h
      rcases ih _ h with hl | ⟨e, he, hr⟩
      · unfold unlockStep at hl
        split at hl
        · rename_i hc
          simp only [Bool.and_eq_true, beq_iff_eq] at hc
          exact .inr ⟨ev, by simp, hc⟩
        · split at hl
          · cases hl
          · exact .inl hl
      · exact .inr ⟨e, by simp [he], hr⟩
  rcases hex _ _ h with hf | ⟨ev, he, hl, hr⟩
  · cases hf
  · refine mem_loadedKeys.2 (.inl ⟨ev, List.mem_filter.2 ⟨he, ?_⟩, ref, hr, rfl⟩)
    cases hs : ev.isSemantic with
    | true => rfl
    | false =>
      have htype : ev.eventType = .JobRunAudit := by simpa [SemanticEvent.isSemantic] using hs
      rw [htype] at hl
      cases hl

theorem loadAffectedState_congr {t u : Table} {evs : List SemanticEvent} (h : ∀ k ∈ loadedKeys evs, t k = u k) :
    loadAffectedState t evs = loadAffectedState u evs := by
  unfold loadAffectedState
  congr 1
  · funext k
    split
    · rw [h k ‹_›]
    · rfl
  · funext ref
    by_cases hm : ref ∈ affectedRefs evs
    · have hk : (ref, lockPredicate) ∈ loadedKeys evs := List.mem_append_left _ (List.mem_map_of_mem hm)
      rw [h _ hk]
    · simp [hm]

/-- Rows outside the read do not matter to what was read. -/
theorem Ready.congr {call : Call} {t u : Table} {rows : List EventRow} {state : CurrentReducedState}
    (hw : ∀ ev ∈ semanticOf call, WellTargeted ev) (h : Ready call t rows state)
    (he : ∀ k ∈ loadedKeys (semanticOf call), t k = u k) : Ready call u rows state where
  fold := by
    rw [← h.fold, foldBatch, foldBatch]
    exact congrArg (reduceAll · _) (loadAffectedState_congr he).symm
  stale k hk r hr hl := by
    rw [← isLocked_congr (he _ (List.mem_append_left _ (List.mem_map_of_mem (loaded_entity hw hk))))]
    exact h.stale k hk r (by rw [he k hk]; exact hr) hl
  unlocks ref hu := by
    rw [← he _ (endsUnlocked_loaded hu)]
    exact h.unlocks ref hu

/-- A ready transaction upserts the fold of the current rows. -/
theorem Ready.delta {call : Call} {t : Table} {rows : List EventRow} {state : CurrentReducedState} (h : Ready call t rows state)
    (hk : t.Keyed) (hw : ∀ ev ∈ call.events.map (·.event), WellTargeted ev) :
    ∃ t₁, t.reduceAll (semanticWithSeqs (call.events.map (·.event)) (rows.map (·.seq))) = some t₁ ∧
      persistDelta t state = store t t₁ := by
  have hspec := foldBatch_spec (rows.map (·.seq)) hk hw h.stale
  rw [h.fold] at hspec
  obtain ⟨t₁, h₁, h₂⟩ := Option.map_eq_some_iff.1 hspec.symm
  exact ⟨t₁, h₁, h₂.symm⟩

/-- What a batch does not write, it stores as it was. -/
theorem store_frame {call : Call} {seqs : List Nat} {t t₁ : Table} {k : Key} (hk : k ∉ changes call)
    (h : t.reduceAll (semanticWithSeqs (call.events.map (·.event)) seqs) = some t₁) : store t t₁ k = t k := by
  have hframe : t₁ k = t k := by
    refine Table.reduceAll_frame (fun ev he hm => hk ?_) h
    obtain ⟨e, n, hem, rfl⟩ := semanticWithSeqs_mem he
    exact List.mem_flatMap.2 ⟨e, hem, hm⟩
  unfold store
  rw [hframe]
  cases t k with
  | none => rfl
  | some r => simp

/-! ## The order of the transactions -/

/-- Conflicting transactions read and commit in the order of their seqs. -/
structure Interleaved (calls : Nat → Call) (s : Sys) : Prop where
  seqs : SeqsOk calls s
  /-- What was read is current until the commit. -/
  ready : ∀ i state, (s.tx i).fold = some state → Ready (calls i) s.state (s.tx i).rows state
  apart : ∀ i j, i ≠ j → (s.tx i).fold.isSome → (s.tx j).fold.isSome → ¬ Conflict (calls i) (calls j)
  before : ∀ i j, i ≠ j → Conflict (calls i) (calls j) → (s.tx i).fold.isSome → (s.tx j).inFlight = true →
    (s.tx j).fold = none → ∀ r ∈ (s.tx i).rows, ∀ m ∈ (s.tx j).held, r.seq < m
  after : ∀ i j, i ≠ j → Conflict (calls i) (calls j) → (s.tx j).inFlight = true →
    ∀ r ∈ (s.tx i).log, ∀ m ∈ (s.tx j).held, r.seq < m
  dedup : ∀ i rows existing, s.tx i = .deduped rows existing → rows = []
  order : DependInOrder s.events
  fold : ∃ v, Table.reduceAll (fun _ => none) (logOf s.events) = some v ∧ Near s.state v
  keyed : s.state.Keyed
  stored : ∀ ref, s.state.isUnlocked ref = false

/-- What the condition on a step gives of the move. -/
structure Admits (calls : Nat → Call) (s s' : Sys) (i : Nat) : Prop where
  read : ∀ rows, s.tx i = .inserting [] rows → (s'.tx i).fold.isSome → ReadOk calls s i rows
  dedup : ∀ rows existing, s'.tx i = .deduped rows existing → s.tx i ≠ s'.tx i → rows = []

namespace Moves

variable {s s' : Sys} {i : Nat}

/-- How a transaction comes to hold a fold, and what it holds then. -/
theorem fold_cases {call : Call} (h : Moves call s i s') {state : CurrentReducedState} (hf : (s'.tx i).fold = some state) :
    (s'.tx i).rows = (s.tx i).rows ∧ (s'.tx i).held = (s.tx i).held ∧ (s.tx i).inFlight = true ∧ s'.state = s.state ∧
      ((∃ rows, s.tx i = .inserting [] rows ∧
          foldBatch s.state (call.events.map (·.event)) (rows.map (·.seq)) = .ok state) ∨
        (s.tx i).fold = some state) := by
  cases h with
  | @leave p _ left =>
    rw [show (s.finish i p).tx i = p from upd_self ..] at hf
    have := fold_inFlight (p := p) (by rw [hf]; rfl)
    rw [left.inFlight] at this
    cases this
  | load ht hfold =>
    simp only [Sys.enter, upd_self, Phase.fold, Option.some.injEq] at hf
    subst hf
    rw [show (s.enter i _).tx i = _ from upd_self .., ht]
    exact ⟨rfl, rfl, rfl, rfl, .inl ⟨_, rfl, hfold⟩⟩
  | upsert ht =>
    simp only [Sys.enter, upd_self, Phase.fold, Option.some.injEq] at hf
    subst hf
    simp only [ht, Sys.enter, upd_self]
    exact ⟨rfl, rfl, rfl, trivial, .inr rfl⟩
  | commit | settle => simp [Sys.finish, Phase.fold] at hf
  | _ => simp [Sys.enter, Phase.fold] at hf

/-- A step commits a fold, or it leaves the rows and commits at most rows of a
transaction that found its key taken. -/
theorem commit_cases {call : Call} (h : Moves call s i s') :
    (∃ rows state, s.tx i = .upserted rows state ∧ (s'.tx i).log = rows ∧ s'.state = persistDelta s.state state) ∨
      (s'.state = s.state ∧ ((s'.tx i).log = [] ∨ ∃ rows existing, s.tx i = .deduped rows existing ∧ (s'.tx i).log = rows)) := by
  cases h with
  | @leave p _ left =>
    rw [show (s.finish i p).tx i = p from upd_self ..]
    exact .inr ⟨rfl, .inl left.held.2⟩
  | commit ht => exact .inl ⟨_, _, ht, by simp [Sys.finish, Phase.log], rfl⟩
  | settle ht => exact .inr ⟨rfl, .inr ⟨_, _, ht, by simp [Sys.finish, Phase.log]⟩⟩
  | _ => exact .inr ⟨rfl, .inl (by simp [Sys.enter, Phase.log])⟩

end Moves

theorem Inserted.wellTargeted {call : Call} {todo : List (EventObj × PreparedEvent)} {rows : List EventRow}
    (h : Inserted call todo rows) : ∀ ev ∈ call.events.map (·.event), WellTargeted ev := by
  obtain ⟨-, prepared, items, hp, -⟩ := h
  exact fun ev he => (prepareAll_accepted hp ev he).wellTargeted

/-- The rows of a transaction past its read are those of the whole batch. -/
theorem Phase.Ok.whole {call : Call} {n : Nat} {p : Phase} (h : p.Ok call n) (hf : p.fold.isSome) : Inserted call [] p.rows := by
  have hs := h.shaped
  cases p <;> first | exact hs | cases hf

theorem changes_loaded {call : Call} {k : Key} (h : k ∈ changes call) : k ∈ loadedKeys (semanticOf call) := by
  obtain ⟨ev, he, hk⟩ := List.mem_flatMap.1 h
  exact writes_loaded he hk

/-- A fold once made is kept while the transaction is in flight. -/
theorem Moves.fold_kept {call : Call} {s s' : Sys} {i : Nat} (h : Moves call s i s') (hf : (s'.tx i).inFlight = true)
    (hn : (s'.tx i).fold = none) : (s.tx i).fold = none := by
  cases h with
  | @leave p _ left =>
    rw [show (s.finish i p).tx i = p from upd_self .., left.inFlight] at hf
    cases hf
  | look ht | check ht | draw ht | insert ht | dedup ht | load ht => rw [ht]; rfl
  | upsert => simp [Sys.enter, Phase.fold] at hn
  | commit | settle => simp [Sys.finish, Phase.inFlight] at hf

namespace Interleaved

variable {s s' : Sys} {i : Nat}

/-- What a committing transaction upserts is the fold of the current rows. -/
theorem delta (h : Interleaved calls s) {rows : List EventRow} {state : CurrentReducedState}
    (ht : s.tx i = .upserted rows state) :
    ∃ t₁, s.state.reduceAll (semanticWithSeqs ((calls i).events.map (·.event)) (rows.map (·.seq))) = some t₁ ∧
      persistDelta s.state state = store s.state t₁ := by
  have hr := h.ready i state (by rw [ht]; rfl)
  have hins := (h.seqs.tx i).whole (by rw [ht]; rfl)
  rw [ht] at hr hins
  exact hr.delta h.keyed hins.wellTargeted

/-- A step leaves the rows its call does not change. -/
theorem frame (h : Interleaved calls s) (hm : Moves (calls i) s i s') {k : Key} (hk : k ∉ changes (calls i)) :
    s'.state k = s.state k := by
  rcases hm.commit_cases with ⟨rows, state, ht, -, he⟩ | ⟨he, -⟩
  · obtain ⟨t₁, h₁, hd⟩ := h.delta ht
    rw [he, hd, store_frame hk h₁]
  · rw [he]

/-- A transaction that comes to hold a fold conflicts with no other that holds one. -/
theorem load_apart (h : Interleaved calls s) (hm : Moves (calls i) s i s') (hok : Admits calls s s' i) {j : Nat} (hj : j ≠ i)
    (hi : (s'.tx i).fold.isSome) (hf : (s.tx j).fold.isSome) : ¬ Conflict (calls i) (calls j) := by
  intro hc
  obtain ⟨state, hstate⟩ := Option.isSome_iff_exists.1 hi
  obtain ⟨-, -, hfi, -, ⟨rows, ht, -⟩ | hold⟩ := hm.fold_cases hstate
  · have hread := hok.read rows ht hi
    have hins := (h.seqs.tx i).shaped
    rw [ht] at hins
    obtain ⟨a, ha⟩ := List.exists_mem_of_ne_nil _ (Inserted.whole hins).1
    obtain ⟨b, hb⟩ := List.exists_mem_of_ne_nil _ ((h.seqs.tx j).whole hf).whole.1
    have h1 := hread.alone j hj (fold_inFlight hf) hc a ha b.seq (rows_held hb)
    have h2 := h.before j i hj hc.symm hf hfi (by rw [ht]; rfl) b hb a.seq (rows_held (by rw [ht]; exact ha))
    omega
  · exact h.apart i j (Ne.symm hj) (by rw [hold]; rfl) hf hc

theorem ready_moves (h : Interleaved calls s) (hm : Moves (calls i) s i s') (hok : Admits calls s s' i) (j : Nat)
    {state : CurrentReducedState} (hf : (s'.tx j).fold = some state) :
    Ready (calls j) s'.state (s'.tx j).rows state := by
  by_cases hj : j = i
  · subst hj
    obtain ⟨hrows, -, -, hst, ⟨rows, ht, hfold⟩ | hold⟩ := hm.fold_cases hf
    · have hread := hok.read rows ht (by rw [hf]; rfl)
      rw [hrows, hst, ht]
      exact ⟨hfold, hread.stale, hread.unlocks⟩
    · rw [hrows, hst]
      exact h.ready j state hold
  · rw [hm.other hj] at hf ⊢
    have hins := (h.seqs.tx j).whole (by rw [hf]; rfl)
    refine (h.ready j state hf).congr (fun ev he => hins.wellTargeted ev (List.mem_filter.1 he).1) fun k hk => ?_
    rcases hm.commit_cases with ⟨rows, st, ht, -⟩ | ⟨he, -⟩
    · refine (h.frame hm fun hkc => ?_).symm
      exact h.apart i j (Ne.symm hj) (by rw [ht]; rfl) (by rw [hf]; rfl) ⟨k, .inl ⟨hkc, hk⟩⟩
    · rw [he]

theorem before_moves (h : Interleaved calls s) (hm : Moves (calls i) s i s') (hok : Admits calls s s' i) {a b : Nat}
    (hab : a ≠ b) (hc : Conflict (calls a) (calls b)) (ha : (s'.tx a).fold.isSome) (hb : (s'.tx b).inFlight = true)
    (hn : (s'.tx b).fold = none) : ∀ r ∈ (s'.tx a).rows, ∀ m ∈ (s'.tx b).held, r.seq < m := by
  intro r hr m hmm
  by_cases hai : a = i
  · subst hai
    rw [hm.other (Ne.symm hab)] at hb hn hmm
    obtain ⟨state, hstate⟩ := Option.isSome_iff_exists.1 ha
    obtain ⟨hrows, -, -, -, ⟨rows, ht, -⟩ | hold⟩ := hm.fold_cases hstate
    · rw [hrows, ht] at hr
      exact (hok.read rows ht ha).alone b (Ne.symm hab) hb hc r hr m hmm
    · rw [hrows] at hr
      exact h.before a b hab hc (by rw [hold]; rfl) hb hn r hr m hmm
  · rw [hm.other hai] at ha hr
    by_cases hbi : b = i
    · subst hbi
      obtain ⟨hf, hm' | hm'⟩ := hm.held_cases hb hmm
      · exact h.before a b hab hc ha hf (hm.fold_kept hb hn) r hr m hm'
      · rw [hm']
        exact ((h.seqs.tx a).range _ (rows_held hr)).2
    · rw [hm.other hbi] at hb hn hmm
      exact h.before a b hab hc ha hb hn r hr m hmm

theorem after_moves (h : Interleaved calls s) (hm : Moves (calls i) s i s') {a b : Nat}
    (hab : a ≠ b) (hc : Conflict (calls a) (calls b)) (hb : (s'.tx b).inFlight = true) :
    ∀ r ∈ (s'.tx a).log, ∀ m ∈ (s'.tx b).held, r.seq < m := by
  intro r hr m hmm
  by_cases hai : a = i
  · subst hai
    rw [hm.other (Ne.symm hab)] at hb hmm
    rcases hm.commit_cases with ⟨rows, state, ht, hl, -⟩ | ⟨-, hl | ⟨rows, existing, ht, hl⟩⟩
    · have hfa : (s.tx a).fold.isSome := by rw [ht]; rfl
      have hrow : r ∈ (s.tx a).rows := by rw [ht]; rw [hl] at hr; exact hr
      cases hfb : (s.tx b).fold with
      | none => exact h.before a b hab hc hfa hb hfb r hrow m hmm
      | some st => exact absurd hc (h.apart a b hab hfa (by rw [hfb]; rfl))
    · rw [hl] at hr; cases hr
    · rw [hl, h.dedup a rows existing ht] at hr; cases hr
  · rw [hm.other hai] at hr
    by_cases hbi : b = i
    · subst hbi
      obtain ⟨hf, hm' | hm'⟩ := hm.held_cases hb hmm
      · exact h.after a b hab hc hf r hr m hm'
      · rw [hm']
        exact ((h.seqs.tx a).range _ (log_held hr)).2
    · rw [hm.other hbi] at hb hmm
      exact h.after a b hab hc hb r hr m hmm

/-- A row of the log that depends on a row in flight has the lower seq. -/
theorem order_moves (h : Interleaved calls s) (hm : Moves (calls i) s i s') : DependInOrder s'.events := by
  unfold DependInOrder
  rw [hm.events]
  rcases hm.commit_cases with ⟨rows, state, ht, hl, -⟩ | ⟨-, hl | ⟨rows, existing, ht, hl⟩⟩
  · have hf : (s.tx i).inFlight = true := by rw [ht]; rfl
    have hok := h.seqs.tx i
    rw [ht] at hok
    rw [hl]
    refine List.pairwise_append.2 ⟨h.order, ?_, fun r hr r' hr' hd => ?_⟩
    · exact (List.pairwise_map.1 hok.sorted).imp fun {a b} hlt (_ : Depend a b) => hlt
    · obtain ⟨j, hj⟩ := (h.seqs.log r).1 hr
      have hji : j ≠ i := by
        rintro rfl
        rw [log_of_live (inFlight_live hf)] at hj
        cases hj
      have hjr : r ∈ (s.tx j).rows := log_rows hj ▸ hj
      obtain ⟨todo, hins⟩ := (h.seqs.tx j).inserted hjr
      have hc := hd.conflict hins hok.shaped hjr hr'
      exact h.after j i hji hc hf r hj r'.seq (rows_held (by rw [ht]; exact hr'))
  · rw [hl, List.append_nil]; exact h.order
  · rw [hl, h.dedup i rows existing ht, List.append_nil]; exact h.order

/-- The seq of a row in the fold of the log is below those of a transaction in
flight that may change the row. -/
theorem seq_above (h : Interleaved calls s) (hf : (s.tx i).inFlight = true) {k : Key} (hk : k ∈ changes (calls i)) {v : Table}
    (hv : Table.reduceAll (fun _ => none) (logOf s.events) = some v) {r : ScalarRow} (hr : v k = some r) :
    ∀ m ∈ (s.tx i).held, r.seq < m := by
  intro m hm
  have hs : ∀ ev ∈ logOf s.events, ∃ n, ev.seq = some n := by
    intro ev he
    obtain ⟨row, -, rfl⟩ := List.mem_map.1 (List.mem_filter.1 he).1
    exact ⟨row.seq, rfl⟩
  rcases reduceAll_origin hs hv hr with h0 | ⟨ev, he, hkw, hseq⟩
  · rw [h0]; exact ((h.seqs.tx i).range m hm).1
  · obtain ⟨hmap, hsem⟩ := List.mem_filter.1 he
    obtain ⟨row, hrow, rfl⟩ := List.mem_map.1 hmap
    have hrs : row.seq = r.seq := Option.some.inj hseq
    obtain ⟨j, hj⟩ := (h.seqs.log row).1 hrow
    have hji : j ≠ i := by
      rintro rfl
      rw [log_of_live (inFlight_live hf)] at hj
      cases hj
    have hjr : row ∈ (s.tx j).rows := log_rows hj ▸ hj
    obtain ⟨todo, hins⟩ := (h.seqs.tx j).inserted hjr
    obtain ⟨e, hem, -, hwe⟩ := (hins.row hjr).2 hsem
    rw [← hrs]
    refine h.after j i hji ⟨k, .inl ⟨List.mem_flatMap.2 ⟨e, hem, hwe ▸ hkw⟩, changes_loaded hk⟩⟩ hf row hj m hm

/-- The events of a batch fold with seqs the transaction holds, over rows that `changes` names. -/
theorem batch_event {p : Phase} {rows : List EventRow} (hr : p.rows = rows) {call : Call} {ev : SemanticEvent}
    (he : ev ∈ semanticWithSeqs (call.events.map (·.event)) (rows.map (·.seq))) :
    (∃ n ∈ p.held, ev.seq = some n) ∧ ∃ e n, e ∈ semanticOf call ∧ ev = { e with seq := some n } := by
  refine ⟨?_, semanticWithSeqs_mem he⟩
  obtain ⟨sub, hs, hsub⟩ := semanticWithSeqs_seqs (call.events.map (·.event)) (rows.map (·.seq))
  have hm : ev.seq ∈ sub.map some := by rw [← hs]; exact List.mem_map_of_mem he
  obtain ⟨n, hn, hseq⟩ := List.mem_map.1 hm
  obtain ⟨row, hrow, rfl⟩ := List.mem_map.1 (hsub.mem hn)
  exact ⟨row.seq, rows_held (hr ▸ hrow), hseq.symm⟩

/-- A commit folds the log further, near the stored rows. -/
theorem commit_fold (h : Interleaved calls s) {rows : List EventRow} {state : CurrentReducedState}
    (ht : s.tx i = .upserted rows state) {t₁ : Table}
    (h₁ : s.state.reduceAll (semanticWithSeqs ((calls i).events.map (·.event)) (rows.map (·.seq))) = some t₁) :
    ∃ v, Table.reduceAll (fun _ => none) (logOf (s.events ++ rows)) = some v ∧ Near (store s.state t₁) v := by
  obtain ⟨v, hv, hnear⟩ := h.fold
  have hf : (s.tx i).inFlight = true := by rw [ht]; rfl
  have hrows : (s.tx i).rows = rows := by rw [ht]; rfl
  have hins := (h.seqs.tx i).whole (by rw [ht]; rfl)
  rw [hrows] at hins
  have hw := semanticWithSeqs_wellTargeted (rows.map (·.seq)) hins.wellTargeted
  obtain ⟨-, prepared, hp, hlen, hat⟩ := hins.whole
  obtain ⟨v₁, hv₁, hal⟩ := reduceAll_near hw hnear (fun ev he => by
    obtain ⟨⟨n, hn, hseq⟩, e, n', hem, rfl⟩ := batch_event hrows he
    refine ⟨n, hseq, fun ref m hd hkw => ?_⟩
    have hk : (ref, lockPredicate) ∈ changes (calls i) := List.mem_flatMap.2 ⟨e, hem, hkw⟩
    have hlt := h.seq_above hf hk hv hd.2 n hn
    exact hlt) h₁
  refine ⟨v₁, ?_, ?_⟩
  · rw [logOf_append, Table.reduceAll_append, hv, Option.bind_some, hat, reduceAll_alike (rows_alike _ hp), hv₁]
  · refine store_near hw h.keyed hnear hal h₁ h.stored fun ref hends => ?_
    rw [endsUnlocked, semanticWithSeqs_unlockStep ref false (by rw [hlen, List.length_map])] at hends
    obtain ⟨hnone, hno⟩ := (h.ready i state (by rw [ht]; rfl)).unlocks ref hends
    refine ⟨hnone, fun ev he _ => ?_⟩
    obtain ⟨-, e, n, hem, rfl⟩ := batch_event hrows he
    exact hno e hem

theorem moves (h : Interleaved calls s) (hm : Moves (calls i) s i s') (hok : Admits calls s s' i) : Interleaved calls s' := by
  have hlog : (s'.tx i).log = [] → s'.events = s.events := fun hl => by rw [hm.events, hl, List.append_nil]
  -- what a commit does to the stored rows, and that nothing else does anything
  have htab : (∃ v, Table.reduceAll (fun _ => none) (logOf s'.events) = some v ∧ Near s'.state v) ∧ s'.state.Keyed ∧
      ∀ ref, s'.state.isUnlocked ref = false := by
    rcases hm.commit_cases with ⟨rows, state, ht, hl, hst⟩ | ⟨hst, hl⟩
    · obtain ⟨t₁, h₁, hd⟩ := h.delta ht
      have hsome : ∀ k, (s.state k).isSome → (t₁ k).isSome := fun k => Table.reduceAll_some h₁
      rw [hm.events, hl, hst, hd]
      exact ⟨h.commit_fold ht h₁, store_keyed h.keyed (Table.reduceAll_keyed h.keyed h₁),
        fun ref => store_isUnlocked hsome (h.stored ref)⟩
    · have hev : s'.events = s.events := by
        rcases hl with hl | ⟨rows, existing, ht, hl⟩
        · exact hlog hl
        · exact hlog (hl.trans (h.dedup i rows existing ht))
      rw [hev, hst]
      exact ⟨h.fold, h.keyed, h.stored⟩
  refine ⟨h.seqs.moves hm, fun j state => h.ready_moves hm hok j, fun a b hab ha hb => ?_,
    fun a b hab hc ha hb hn => h.before_moves hm hok hab hc ha hb hn, fun a b hab hc hb => h.after_moves hm hab hc hb,
    fun j rows existing ht => ?_, h.order_moves hm, htab.1, htab.2.1, htab.2.2⟩
  · by_cases hai : a = i
    · subst hai
      rw [hm.other (Ne.symm hab)] at hb
      exact h.load_apart hm hok (Ne.symm hab) ha hb
    · rw [hm.other hai] at ha
      by_cases hbi : b = i
      · subst hbi
        exact fun hc => h.load_apart hm hok hab hb ha hc.symm
      · rw [hm.other hbi] at hb
        exact h.apart a b hab ha hb
  · by_cases hj : j = i
    · subst hj
      by_cases he : s.tx j = s'.tx j
      · exact h.dedup j rows existing (he.trans ht)
      · exact hok.dedup rows existing ht he
    · rw [hm.other hj] at ht
      exact h.dedup j rows existing ht

/-- The rows a step leaves. -/
theorem keepsRows (h : Interleaved calls s) (hm : Moves (calls i) s i s') : KeepsRows (calls i) s.state s'.state := by
  intro k r hr
  rcases hm.commit_cases with ⟨rows, state, ht, -, hst⟩ | ⟨hst, -⟩
  · by_cases hk : k ∈ changes (calls i)
    · obtain ⟨t₁, h₁, hd⟩ := h.delta ht
      obtain ⟨v, hv, hnear⟩ := h.fold
      have hf : (s.tx i).inFlight = true := by rw [ht]; rfl
      have hrows : (s.tx i).rows = rows := by rw [ht]; rfl
      have habove := h.seq_above hf hk hv (hnear.some hr)
      obtain ⟨r₁, hr₁, hle⟩ := reduceAll_seq_le hr (fun ev he _ => by
        obtain ⟨⟨n, hn, hseq⟩, -⟩ := batch_event hrows he
        exact ⟨n, hseq, Nat.le_of_lt (habove n hn)⟩) (Nat.le_refl _) h₁
      rw [hst, hd]
      by_cases hmark : (k.2 = lockPredicate && r₁.state.isStr "UNLOCKED") = true
      · exact ⟨r, by simp only [store, hr₁, hmark, if_true, hr], Nat.le_refl _, fun _ => .inl rfl⟩
      · refine ⟨r₁, by simp [store, hr₁, hmark], hle, fun hu => ?_⟩
        by_cases hno : ∃ ev ∈ semanticOf (calls i), k ∈ writes ev ∧ Overrides ev
        · exact .inr hno
        · have := reduceAll_override hr hu (fun ev he hkw hov => by
            obtain ⟨-, e, n, hem, rfl⟩ := batch_event hrows he
            exact hno ⟨e, hem, hkw, hov⟩) h₁
          rw [hr₁] at this
          exact .inl (Option.some.inj this)
    · exact ⟨r, (h.frame hm hk).trans hr, Nat.le_refl _, fun _ => .inl rfl⟩
  · exact ⟨r, by rw [hst]; exact hr, Nat.le_refl _, fun _ => .inl rfl⟩

end Interleaved

theorem Interleaved.init : Interleaved calls {} := by
  refine ⟨.init, ?_, ?_, ?_, ?_, ?_, .nil, ⟨_, rfl, .refl _⟩, ?_, fun _ => rfl⟩
  · exact fun i state hf => by cases hf
  · exact fun i j _ hf => by cases hf
  · exact fun i j _ _ hf => by cases hf
  · exact fun i j _ _ _ r hr => by cases hr
  · exact fun i rows existing ht => by cases ht
  · exact fun k r hr => by cases hr

/-- An abort reads nothing. -/
theorem admits_of_inOrder {s s' : Sys} {a : Act} (hok : InOrder calls s a) (hs : step calls s a = some s') :
    Moves (calls a.tx) s a.tx s' ∧ Admits calls s s' a.tx := by
  cases a with
  | next i =>
    refine ⟨next_moves hs, fun rows ht _ => ?_, fun rows existing ht hne => ?_⟩
    · have hphase : s.tx i = .inserting [] rows := ht
      simp only [InOrder, hphase] at hok
      exact hok
    · have hm : Moves (calls i) s i s' := next_moves hs
      cases hm with
      | dedup hd hkey =>
        simp only [Act.tx, Sys.enter, upd_self, Phase.deduped.injEq] at ht
        obtain ⟨rfl, rfl⟩ := ht
        simp only [InOrder, hd] at hok
        by_contra hrows
        rw [hok hrows] at hkey
        cases hkey
      | @leave p _ left =>
        have hp : p = .deduped rows existing := (upd_self s.tx i p).symm.trans ht
        rw [hp] at left
        cases left
      | commit | settle => simp [Act.tx, Sys.finish] at ht
      | _ => simp [Act.tx, Sys.enter] at ht
  | abort i =>
    simp only [step] at hs
    split at hs
    · cases hs
    · rename_i ho
      cases hs
      refine ⟨.leave (Bool.eq_false_iff.2 ho) trivial, fun rows _ hf => ?_, fun rows existing ht => ?_⟩
      · simp [Act.tx, Sys.finish, Phase.fold] at hf
      · simp [Act.tx, Sys.finish] at ht

theorem interleaved_run {s : Sys} (h : Run (step calls) (InOrder calls) {} s) : Interleaved calls s := by
  refine h.inv (Interleaved calls) .init fun s a s' hi hok hs => ?_
  obtain ⟨hm, hadm⟩ := admits_of_inOrder hok hs
  exact hi.moves hm hadm

theorem Interleaved.rebuild_eq {s : Sys} (h : Interleaved calls s) : rebuild s.events = .ok s.state := by
  obtain ⟨v, hv, hnear⟩ := h.fold
  rw [rebuild_commit_order h.order (fun r hr => (h.seqs.below hr).1) ?_ hv, hnear.store_eq h.stored]
  intro ev he
  obtain ⟨row, hrow, rfl⟩ := List.mem_map.1 (List.mem_filter.1 he).1
  obtain ⟨j, hj⟩ := (h.seqs.log row).1 hrow
  have hjr : row ∈ (s.tx j).rows := log_rows hj ▸ hj
  obtain ⟨todo, hins⟩ := (h.seqs.tx j).inserted hjr
  exact (hins.row hjr).1

/-- A user's override of a row, and an assertion of the same row by a machine. -/
def overrideAndAssertion : Nat → Call
  | 0 => one .OverrideApplied [("subject_ref", .str "e"), ("predicate", .str "SPEAKS"), ("object_ref", .str "user")]
  | _ => one .SemanticAsserted
    [("predicate_code", .str "SPEAKS"), ("subject_ref", .str "e"), ("object_ref", .str "machine"), ("scope", .str "GLOBAL")]

/-- Both read before either commits, in the order of their seqs. -/
def bothRead : List Act :=
  [.next 0, .next 0, .next 0, .next 0, .next 1, .next 1, .next 1, .next 1, .next 0, .next 1, .next 0, .next 0, .next 1,
    .next 1]

end Umd.Ledger
