import Umd.Projections.Current
/-!
# What one `append` leaves

The Tier-0 delta of a batch is the fold of the table, except that a marker left
`UNLOCKED` is not stored (`applyTier0_spec`); the inserts give a batch the next
seqs in order (`insertAll_ok`); and the rows inserted replay as the events they
were made from (`upcast_alike`).
-/

namespace Umd.Ledger

open Umd.Lib Umd.Events Umd.Reducer Umd.Projections

/-! ## The Tier-0 delta as a fold of the table -/

/-- The rows of a fold as they are stored over `t`: an unlocked marker is not. -/
def store (t t' : Table) : Table := fun k =>
  match t' k with
  | none => t k
  | some r => if k.2 = lockPredicate && r.state.isStr "UNLOCKED" then t k else some r

/-- No row a batch loads says `LOCKED` while its entity is not locked: only the
load takes such a row for a pinned one. -/
def NoStaleLock (t : Table) (evs : List SemanticEvent) : Prop :=
  ∀ k ∈ loadedKeys (evs.filter (·.isSemantic)), ∀ r, t k = some r → r.state.isStr "LOCKED" = true → t.isLocked k.1 = true

theorem mem_loadedKeys {evs : List SemanticEvent} {k : Key} :
    k ∈ loadedKeys evs ↔ (∃ ev ∈ evs, ∃ ref, entityRefOf ev = some ref ∧ k = (ref, lockPredicate)) ∨
      ∃ ev ∈ evs, changeTarget ev = some k ∨ identityEventTarget ev = some k := by
  simp only [loadedKeys, affectedRefs, affectedTargets, List.mem_append, List.mem_map, List.mem_filterMap,
    List.mem_flatMap, Option.mem_toList]
  constructor
  · rintro (⟨ref, ⟨ev, he, hr⟩, rfl⟩ | h)
    · exact .inl ⟨ev, he, ref, hr, rfl⟩
    · exact .inr h
  · rintro (⟨ev, he, ref, hr, rfl⟩ | h)
    · exact .inl ⟨ref, ⟨ev, he, hr⟩, rfl⟩
    · exact .inr h

/-- The entity of a loaded row is one of those whose markers are loaded. -/
theorem loaded_entity {evs : List SemanticEvent} (hw : ∀ ev ∈ evs, WellTargeted ev) {k : Key} (hk : k ∈ loadedKeys evs) :
    k.1 ∈ affectedRefs evs := by
  rw [affectedRefs, List.mem_filterMap]
  rcases mem_loadedKeys.1 hk with ⟨ev, he, ref, hr, rfl⟩ | ⟨ev, he, ht | hi⟩
  · exact ⟨ev, he, hr⟩
  · exact ⟨ev, he, eventTarget_entity (changeTarget_eq ht).1⟩
  · exact ⟨ev, he, (hw ev he).identityEntity k hi⟩

theorem writes_loaded {evs : List SemanticEvent} {ev : SemanticEvent} (he : ev ∈ evs) {k : Key} (hk : k ∈ writes ev) :
    k ∈ loadedKeys evs := by
  rw [mem_loadedKeys]
  unfold writes at hk
  split at hk
  · split at hk
    · rename_i ref hr
      rw [List.mem_singleton] at hk
      exact .inl ⟨ev, he, ref, hr, hk⟩
    · cases hk
  · split at hk
    · cases hk
    · rename_i target ht
      rcases List.mem_cons.1 hk with rfl | hk
      · exact .inr ⟨ev, he, .inl ht⟩
      · exact .inr ⟨ev, he, .inr (Option.mem_toList.1 hk)⟩

/-- A batch loads what its events read. -/
theorem reads_loaded {evs : List SemanticEvent} (hw : ∀ ev ∈ evs, WellTargeted ev) {ev : SemanticEvent} (he : ev ∈ evs)
    {k : Key} (hk : k ∈ reads ev) : k ∈ loadedKeys evs := by
  obtain ⟨k', hk', hm⟩ := List.mem_flatMap.1 hk
  rcases List.mem_cons.1 hm with rfl | hm
  · exact writes_loaded he hk'
  · rw [List.mem_singleton] at hm
    subst hm
    obtain ⟨ev', he', hr⟩ := List.mem_filterMap.1 (loaded_entity hw (writes_loaded he hk'))
    exact mem_loadedKeys.2 (.inl ⟨ev', he', _, hr, rfl⟩)

/-- The loaded state covers the table on the loaded keys. -/
theorem load_covers {t : Table} {evs : List SemanticEvent} (hk : t.Keyed) (hw : ∀ ev ∈ evs, WellTargeted ev)
    (hs : ∀ k ∈ loadedKeys evs, ∀ r, t k = some r → r.state.isStr "LOCKED" = true → t.isLocked k.1 = true) :
    Covers (· ∈ loadedKeys evs) (loadAffectedState t evs) t where
  rows k hm := by
    simp only [columns, loadAffectedState, hm, if_true]
    cases t k <;> rfl
  locks ref hm := by
    have := loaded_entity hw hm
    simp [loadAffectedState, this, Table.isLocked]
  unpinned k row hr hl := by
    simp only [loadAffectedState] at hr ⊢
    split at hr
    · rename_i hm
      obtain ⟨r, htr, rfl⟩ := Option.map_eq_some_iff.1 hr
      have := loaded_entity hw hm
      simpa [this, Table.isLocked] using hs k hm r htr hl
    · cases hr
  keyed k row hr := by
    simp only [loadAffectedState] at hr
    split at hr
    · obtain ⟨r, htr, rfl⟩ := Option.map_eq_some_iff.1 hr
      exact hk k r htr
    · cases hr

/-- A fold creates no row that its events do not write. -/
theorem reduceAll_none {evs : List SemanticEvent} {k : Key} (hk : ∀ ev ∈ evs, k ∉ writes ev) :
    ∀ {s s' : CurrentReducedState}, s.rows k = none → reduceAll s evs = .ok s' → s'.rows k = none := by
  induction evs with
  | nil => intro s s' h hr; cases hr; exact h
  | cons ev evs ih =>
    intro s s' h hr
    simp only [reduceAll, bind, Except.bind] at hr
    cases h1 : reduce s ev with
    | error e => simp [h1] at hr
    | ok s1 =>
      simp only [h1] at hr
      refine ih (fun e he => hk e (by simp [he])) ?_ hr
      have hnot := hk ev (by simp)
      cases hl : isLockEvent ev.eventType with
      | true =>
        rcases reduce_lock hl h1 with ⟨-, rfl⟩ | ⟨ref, href, rfl⟩
        · exact h
        · rw [writes_lock hl href, List.mem_singleton] at hnot
          rw [reduceLock_rows _ _ _ _ hnot, pinRows, h]; rfl
      | false =>
        rcases (reduce_change hl h1).2 k with he | ⟨hm, -⟩
        · rw [he, h]
        · exact absurd hm hnot

/-- The batch's semantic events with their seqs write what the batch loads. -/
theorem semanticWithSeqs_mem {evs : List SemanticEvent} {seqs : List Nat} {ev : SemanticEvent}
    (h : ev ∈ semanticWithSeqs evs seqs) : ∃ e n, e ∈ evs.filter (·.isSemantic) ∧ ev = { e with seq := some n } := by
  obtain ⟨⟨e, n⟩, hp, rfl⟩ := List.mem_map.1 h
  obtain ⟨hz, hs⟩ := List.mem_filter.1 hp
  exact ⟨e, n, List.mem_filter.2 ⟨(List.of_mem_zip hz).1, hs⟩, rfl⟩

/-- What a folded state stores is what the fold of the table stores. -/
theorem persistDelta_covers {t t' : Table} {evs : List SemanticEvent} {s : CurrentReducedState}
    (h : Covers (· ∈ loadedKeys evs) s t') (hn : ∀ k, k ∉ loadedKeys evs → s.rows k = none ∧ t' k = t k) :
    persistDelta t s = store t t' := by
  funext k
  by_cases hk : k ∈ loadedKeys evs
  · have hcol := h.rows k hk
    unfold persistDelta store
    cases hr : s.rows k with
    | none => rw [columns, hr] at hcol; rw [← hcol]; rfl
    | some row =>
      rw [columns, hr] at hcol
      rw [← hcol]
      have hkey := h.keyed k row hr
      have hp : row.predicate = k.2 := congrArg Prod.snd hkey
      simp only [Option.map_some, isUnlockedMarker, hp]
      rfl
  · obtain ⟨hr, ht⟩ := hn k hk
    unfold persistDelta store
    rw [hr, ht]
    cases t k with
    | none => rfl
    | some r => simp

/-- What the folded batch upserts is the fold of the table, stored. -/
theorem foldBatch_spec {t : Table} {evs : List SemanticEvent} (seqs : List Nat) (hk : t.Keyed)
    (hw : ∀ ev ∈ evs, WellTargeted ev) (hs : NoStaleLock t evs) :
    (foldBatch t evs seqs).toOption.map (persistDelta t) = (t.reduceAll (semanticWithSeqs evs seqs)).map (store t) := by
  have hws : ∀ ev ∈ evs.filter (·.isSemantic), WellTargeted ev := fun ev he => hw ev (List.mem_filter.1 he).1
  have hsub : ∀ ev ∈ semanticWithSeqs evs seqs, WellTargeted ev ∧
      ∀ k ∈ reads ev, k ∈ loadedKeys (evs.filter (·.isSemantic)) := by
    intro ev he
    obtain ⟨e, n, hm, rfl⟩ := semanticWithSeqs_mem he
    exact ⟨(hws e hm).withSeq _, fun k hk => reads_loaded hws hm hk⟩
  have h := reduceAll_covers (load_covers hk hws hs) (fun ev he => (hsub ev he).1) (fun ev he => (hsub ev he).2)
  unfold foldBatch
  cases hr : reduceAll (loadAffectedState t (evs.filter (·.isSemantic))) (semanticWithSeqs evs seqs) with
  | error e =>
    rw [hr] at h
    cases ht : t.reduceAll (semanticWithSeqs evs seqs) with
    | none => rfl
    | some t' => rw [ht] at h; exact h.elim
  | ok s =>
    rw [hr] at h
    cases ht : t.reduceAll (semanticWithSeqs evs seqs) with
    | none => rw [ht] at h; exact h.elim
    | some t' =>
      rw [ht] at h
      refine congrArg some (persistDelta_covers h fun k hkn => ?_)
      have hnot : ∀ ev ∈ semanticWithSeqs evs seqs, k ∉ writes ev := fun ev he hm =>
        hkn ((hsub ev he).2 k (mem_reads_of_writes hm))
      exact ⟨reduceAll_none hnot (by simp [loadAffectedState, hkn]) hr, Table.reduceAll_frame hnot ht⟩

/-- A batch without semantic events upserts nothing, so it may as well be folded. -/
theorem applyTier0_eq (t : Table) (evs : List SemanticEvent) (seqs : List Nat) :
    applyTier0 t evs seqs = (foldBatch t evs seqs).map (persistDelta t) := by
  unfold applyTier0
  split
  · rename_i hempty
    rw [List.isEmpty_iff] at hempty
    have hnil : semanticWithSeqs evs seqs = [] := by
      rw [List.eq_nil_iff_forall_not_mem]
      intro ev he
      obtain ⟨e, n, hm, rfl⟩ := semanticWithSeqs_mem he
      rw [hempty] at hm
      cases hm
    rw [foldBatch, hnil, hempty]
    exact congrArg Except.ok (funext fun k => rfl)
  · rfl

/-- The inline delta is the fold of the table over the batch, stored. -/
theorem applyTier0_spec {t : Table} {evs : List SemanticEvent} (seqs : List Nat) (hk : t.Keyed)
    (hw : ∀ ev ∈ evs, WellTargeted ev) (hs : NoStaleLock t evs) :
    (applyTier0 t evs seqs).toOption = (t.reduceAll (semanticWithSeqs evs seqs)).map (store t) := by
  rw [applyTier0_eq, ← foldBatch_spec seqs hk hw hs]
  cases foldBatch t evs seqs <;> rfl

/-! ## The inserts -/

/-- A later object of the batch is the first one again. -/
def repeatsFirst (call : Call) : Prop := ∃ ev ∈ call.events.tail, call.events.head?.any (·.id = ev.id) = true

/-- The rows a batch is inserted as with these seqs. -/
def rowsAt (call : Call) (items : List (EventObj × PreparedEvent)) (seqs : List Nat) : List EventRow :=
  List.zipWith (fun item n => .of item.2 n (insertKey call item.1)) items seqs

theorem rowsAt_seq (call : Call) {items : List (EventObj × PreparedEvent)} {seqs : List Nat}
    (h : seqs.length = items.length) : (rowsAt call items seqs).map (·.seq) = seqs := by
  induction items generalizing seqs with
  | nil => rw [List.length_eq_zero_iff.1 h]; rfl
  | cons item items ih =>
    obtain ⟨n, seqs, rfl⟩ := List.exists_cons_of_length_eq_add_one h
    exact congrArg (n :: ·) (ih (Nat.succ.inj h))

theorem rowsAt_append (call : Call) {items items' : List (EventObj × PreparedEvent)} {seqs seqs' : List Nat}
    (h : seqs.length = items.length) :
    rowsAt call (items ++ items') (seqs ++ seqs') = rowsAt call items seqs ++ rowsAt call items' seqs' :=
  List.zipWith_append h.symm

/-- The rows a batch is inserted as from a seq on. -/
def rowsFrom (call : Call) (n : Nat) (items : List (EventObj × PreparedEvent)) : List EventRow :=
  rowsAt call items (List.range' n items.length)

theorem rowsFrom_seq (call : Call) (items : List (EventObj × PreparedEvent)) (n : Nat) :
    (rowsFrom call n items).map (·.seq) = List.range' n items.length := rowsAt_seq call (by simp)

theorem rowsFrom_cons (call : Call) (ev : EventObj) (pe : PreparedEvent) (items : List (EventObj × PreparedEvent)) (n : Nat) :
    rowsFrom call n ((ev, pe) :: items) = .of pe n (insertKey call ev) :: rowsFrom call (n + 1) items := by
  simp [rowsFrom, rowsAt, List.range'_succ]

/-- Inserts that all go through take the next seqs in order. -/
theorem insertAll_ok {call : Call} {items : List (EventObj × PreparedEvent)} :
    ∀ {db db' : Db} {seqs : List Nat}, insertAll call db items = (db', .ok seqs) →
      seqs = List.range' db.nextSeq items.length ∧
      db' = { db with events := db.events ++ rowsFrom call db.nextSeq items, nextSeq := db.nextSeq + items.length } := by
  induction items with
  | nil => intro db db' seqs h; cases h; simp [rowsFrom, rowsAt]
  | cons item items ih =>
    obtain ⟨ev, pe⟩ := item
    intro db db' seqs h
    simp only [insertAll, insertRow] at h
    cases hk : (insertKey call ev).bind (seqOfKey db.events) with
    | some existing => simp [hk] at h
    | none =>
      simp only [hk] at h
      split at h
      · cases h
      · rename_i db'' seqs' hrest
        cases h
        obtain ⟨hs, hd⟩ := ih hrest
        refine ⟨by rw [hs, List.length_cons, List.range'_succ], ?_⟩
        rw [hd]
        simp only [rowsFrom_cons, List.append_assoc, List.singleton_append, List.length_cons, Db.mk.injEq, true_and]
        omega

/-- Without a key no insert finds one. -/
theorem insertAll_keyless {call : Call} {items : List (EventObj × PreparedEvent)}
    (h : ∀ item ∈ items, insertKey call item.1 = none) :
    ∀ db : Db, ∃ db' seqs, insertAll call db items = (db', .ok seqs) := by
  induction items with
  | nil => exact fun db => ⟨db, [], rfl⟩
  | cons item items ih =>
    obtain ⟨ev, pe⟩ := item
    intro db
    have hk : insertKey call ev = none := h (ev, pe) (by simp)
    obtain ⟨db', seqs, he⟩ := ih (fun i hi => h i (by simp [hi]))
      { db with events := db.events ++ [.of pe db.nextSeq none], nextSeq := db.nextSeq + 1 }
    exact ⟨db', db.nextSeq :: seqs, by simp [insertAll, insertRow, hk, he]⟩

theorem prepareAll_length {evs : List EventObj} : ∀ {prepared : List PreparedEvent},
    prepareAll evs = .ok prepared → prepared.length = evs.length := by
  induction evs with
  | nil => intro p h; cases h; rfl
  | cons ev evs ih =>
    intro p h
    simp only [prepareAll] at h
    split at h
    · cases h
    · cases h
    · cases hr : prepareAll evs with
      | error e => simp [hr, Except.map] at h
      | ok ps => simp only [hr, Except.map, Except.ok.injEq] at h; rw [← h]; simp [ih hr]

/-- A fresh key on a batch that does not repeat its first object: every insert goes through. -/
theorem insertAll_fresh {db : Db} {call : Call} (prepared : List PreparedEvent)
    (hfresh : call.idempotencyKey.bind (seqOfKey db.events) = none)
    (hrep : call.idempotencyKey ≠ none → ¬ repeatsFirst call) :
    ∃ db' seqs, insertAll call db (call.events.zip prepared) = (db', .ok seqs) := by
  cases hkey : call.idempotencyKey with
  | none => exact insertAll_keyless (fun item _ => by simp [insertKey, hkey]) db
  | some key =>
    have hrep' := hrep (by simp [hkey])
    cases hev : call.events with
    | nil => exact ⟨db, [], rfl⟩
    | cons ev evs =>
      cases prepared with
      | nil => exact ⟨db, [], rfl⟩
      | cons pe pes =>
        -- the head takes the key, and no later object is the head again
        have htail : ∀ item ∈ evs.zip pes, insertKey call item.1 = none := by
          intro item hi
          have hm := (List.of_mem_zip hi).1
          have hne : ¬ ev.id = item.1.id := fun he =>
            hrep' ⟨item.1, by simpa [hev] using hm, by simp [hev, he]⟩
          simp [insertKey, hev, hne]
        have hhead : insertKey call ev = some key := by simp [insertKey, hev, hkey]
        have hf : seqOfKey db.events key = none := by simpa [hkey] using hfresh
        obtain ⟨db', seqs, he⟩ := insertAll_keyless htail
          { db with events := db.events ++ [.of pe db.nextSeq (some key)], nextSeq := db.nextSeq + 1 }
        exact ⟨db', db.nextSeq :: seqs, by simp [insertAll, insertRow, hhead, hf, he]⟩

/-! ## Replaying the rows -/

/-- The semantic events of a log as a replay reads them. -/
def logOf (rows : List EventRow) : List SemanticEvent := (rows.map upcast).filter (·.isSemantic)

@[simp] theorem logOf_append (rows rows' : List EventRow) : logOf (rows ++ rows') = logOf rows ++ logOf rows' := by
  simp [logOf]

/-- A row replays as the event it was made from. -/
theorem upcast_alike {ev : SemanticEvent} {pe : PreparedEvent} (h : ev.prepare = .ok pe) (n : Nat) (key : Option Uuid) :
    ReadsAlike { ev with seq := some n } (upcast (.of pe n key)) := by
  obtain ⟨v, s, hs, hv, hpe⟩ := prepare_ok h
  have hlatest := upcast_latest hs ev.payload (upcastPayload ev.eventType v ev.payload).2
  have hp : (upcast (.of pe n key)).payload = (upcastPayload ev.eventType v ev.payload).2 := by
    simp only [upcast, EventRow.of, hpe, if_neg hlatest.2]
    exact hlatest.1
  refine ⟨by rw [hpe]; rfl, by rw [hpe]; rfl, by rw [hpe]; rfl, by rw [hpe]; rfl, by rw [hpe]; rfl, rfl, ?_⟩
  rw [hp]
  exact @upcast_fields { ev with seq := some n } v s hs hv

theorem reduceAll_alike {evs evs' : List SemanticEvent} (h : List.Forall₂ ReadsAlike evs evs') :
    ∀ t : Table, t.reduceAll evs' = t.reduceAll evs := by
  induction h with
  | nil => intro t; rfl
  | cons h _ ih =>
    intro t
    simp only [Table.reduceAll, h.reduce, ih]

theorem wellTargeted_alike {evs evs' : List SemanticEvent} (h : List.Forall₂ ReadsAlike evs evs')
    (hw : ∀ ev ∈ evs, WellTargeted ev) : ∀ ev ∈ evs', WellTargeted ev := by
  induction h with
  | nil => intro ev he; cases he
  | cons ha _ ih =>
    intro ev he
    rcases List.mem_cons.1 he with rfl | he
    · exact ha.wellTargeted (hw _ (by simp))
    · exact ih (fun e hm => hw e (by simp [hm])) ev he

theorem prepareAll_cons {ev : EventObj} {evs : List EventObj} {prepared : List PreparedEvent}
    (h : prepareAll (ev :: evs) = .ok prepared) :
    ∃ pe ps, prepared = pe :: ps ∧ ev.event.prepare = .ok pe ∧ prepareAll evs = .ok ps := by
  simp only [prepareAll] at h
  split at h
  · cases h
  · cases h
  · rename_i pe hpe
    cases hr : prepareAll evs with
    | error e => simp [hr, Except.map] at h
    | ok ps =>
      simp only [hr, Except.map, Except.ok.injEq] at h
      exact ⟨pe, ps, h.symm, hpe, rfl⟩

theorem prepareAll_accepted {evs : List EventObj} {prepared : List PreparedEvent} (h : prepareAll evs = .ok prepared) :
    ∀ ev ∈ evs.map (·.event), Accepted ev := by
  induction evs generalizing prepared with
  | nil => simp
  | cons ev evs ih =>
    obtain ⟨pe, ps, rfl, hpe, hps⟩ := prepareAll_cons h
    intro e he
    rcases List.mem_cons.1 he with rfl | he
    · exact accepted_of_prepare hpe
    · exact ih hps e he

/-- A batch's rows replay as its events with their seqs. -/
theorem rows_alike {call : Call} {evs : List EventObj} : ∀ {prepared : List PreparedEvent} (seqs : List Nat),
    prepareAll evs = .ok prepared →
    List.Forall₂ ReadsAlike (semanticWithSeqs (evs.map (·.event)) seqs) (logOf (rowsAt call (evs.zip prepared) seqs)) := by
  induction evs with
  | nil => intro p seqs h; cases h; exact .nil
  | cons ev evs ih =>
    intro p seqs h
    obtain ⟨pe, ps, rfl, hpe, hps⟩ := prepareAll_cons h
    cases seqs with
    | nil => exact .nil
    | cons n seqs =>
      have hrest := ih seqs hps
      have halike := upcast_alike hpe n (insertKey call ev)
      have hsem : (upcast (.of pe n (insertKey call ev))).isSemantic = ev.event.isSemantic := by
        rw [SemanticEvent.isSemantic, halike.eventType, SemanticEvent.isSemantic]
      simp only [List.map_cons, List.zip_cons_cons, rowsAt, List.zipWith_cons_cons, semanticWithSeqs, logOf,
        List.filter_cons, hsem]
      cases ev.event.isSemantic with
      | true => exact .cons halike hrest
      | false => exact hrest

theorem zip_length {call : Call} {prepared : List PreparedEvent} (h : prepareAll call.events = .ok prepared) :
    (call.events.zip prepared).length = call.events.length := by
  rw [List.length_zip, prepareAll_length h, Nat.min_self]

theorem rowsFrom_alike {call : Call} {prepared : List PreparedEvent} (n : Nat) (h : prepareAll call.events = .ok prepared) :
    List.Forall₂ ReadsAlike (semanticWithSeqs (call.events.map (·.event)) (List.range' n call.events.length))
      (logOf (rowsFrom call n (call.events.zip prepared))) := by
  rw [rowsFrom, zip_length h]
  exact rows_alike _ h

/-- Every event replayed from a batch is as well targeted as the event it was made from. -/
theorem rows_wellTargeted {call : Call} {evs : List EventObj} {prepared : List PreparedEvent} {seqs : List Nat}
    (h : prepareAll evs = .ok prepared) :
    ∀ ev ∈ logOf (rowsAt call (evs.zip prepared) seqs), WellTargeted ev := by
  have hacc := prepareAll_accepted h
  have hsrc : ∀ ev ∈ semanticWithSeqs (evs.map (·.event)) seqs, WellTargeted ev := by
    intro ev he
    obtain ⟨e, m, hm, rfl⟩ := semanticWithSeqs_mem he
    exact ((hacc e (List.mem_filter.1 hm).1).wellTargeted).withSeq _
  exact wellTargeted_alike (rows_alike seqs h) hsrc

/-- A log in seq order is replayed in the order it was written. -/
theorem loadEvents_ordered {rows : List EventRow} (ho : (rows.map (·.seq)).Pairwise (· < ·))
    (hp : ∀ r ∈ rows, 0 < r.seq) : loadEvents rows 0 = rows := by
  unfold loadEvents
  rw [List.filter_eq_self.2 (by simpa using hp)]
  apply List.Pairwise.insertionSort_eq
  rw [List.pairwise_map] at ho
  exact ho.imp Nat.le_of_lt

/-- The rebuilt table is the fold of the log in seq order, stored over the empty table. -/
theorem rebuild_loaded {rows : List EventRow} (hw : ∀ ev ∈ logOf (loadEvents rows 0), WellTargeted ev) {t : Table}
    (ht : Table.reduceAll (fun _ => none) (logOf (loadEvents rows 0)) = some t) :
    rebuild rows = .ok (store (fun _ => none) t) := by
  unfold rebuild canonicalFold
  have h := reduceAll_covers (Covers.empty fun _ => True) hw (fun _ _ _ _ => trivial)
  rw [ht] at h
  unfold replay
  change Except.map (persist fun _ => none) (reduceAll {} (logOf (loadEvents rows 0))) = _
  cases hs : reduceAll {} (logOf (loadEvents rows 0)) with
  | error e => rw [hs] at h; exact h.elim
  | ok s =>
    rw [hs] at h
    refine congrArg Except.ok (funext fun k => ?_)
    unfold persist persistDelta store
    have hcol := h.rows k trivial
    cases hr : s.rows k with
    | none => rw [columns, hr] at hcol; rw [← hcol]; rfl
    | some row =>
      rw [columns, hr] at hcol
      rw [← hcol]
      have hp : row.predicate = k.2 := congrArg Prod.snd (h.keyed k row hr)
      simp only [Option.map_some, isUnlockedMarker, hp]
      rfl

/-- A log in seq order is folded as it was written. -/
theorem rebuild_fold {rows : List EventRow} (ho : (rows.map (·.seq)).Pairwise (· < ·)) (hp : ∀ r ∈ rows, 0 < r.seq)
    (hw : ∀ ev ∈ logOf rows, WellTargeted ev) {t : Table} (ht : Table.reduceAll (fun _ => none) (logOf rows) = some t) :
    rebuild rows = .ok (store (fun _ => none) t) := by
  rw [← loadEvents_ordered ho hp] at hw ht
  exact rebuild_loaded hw ht

/-! ## One call -/

/-- The call repeats its first object under a key no row has yet. -/
def reusesKey (db : Db) (call : Call) : Prop :=
  call.idempotencyKey ≠ none ∧ call.idempotencyKey.bind (seqOfKey db.events) = none ∧ repeatsFirst call

/-- A call changes no table, or it appends its rows and applies their delta. -/
theorem append_cases (db : Db) (call : Call) (hrep : ¬ reusesKey db call) :
    (∃ n, db.nextSeq ≤ n ∧ (append db call).1 = { db with nextSeq := n }) ∨
    ∃ prepared t', prepareAll call.events = .ok prepared ∧
      applyTier0 db.state (call.events.map (·.event)) (List.range' db.nextSeq call.events.length) = .ok t' ∧
      (append db call).1 =
        { events := db.events ++ rowsFrom call db.nextSeq (call.events.zip prepared)
          state := t'
          nextSeq := db.nextSeq + call.events.length } := by
  unfold append
  split
  · exact .inl ⟨_, Nat.le_refl _, rfl⟩
  · split
    · exact .inl ⟨_, Nat.le_refl _, rfl⟩
    · rename_i hfresh
      split
      · exact .inl ⟨_, Nat.le_refl _, rfl⟩
      · split
        · exact .inl ⟨_, Nat.le_refl _, rfl⟩
        · rename_i prepared hprep
          obtain ⟨db', seqs, hins⟩ := insertAll_fresh prepared hfresh
            (fun hne hr => hrep ⟨hne, hfresh, hr⟩)
          have hlen : (call.events.zip prepared).length = call.events.length := by
            rw [List.length_zip, prepareAll_length hprep, Nat.min_self]
          obtain ⟨hseqs, hdb⟩ := insertAll_ok hins
          rw [hlen] at hseqs hdb
          rw [hins]
          have hstate : db'.state = db.state := by rw [hdb]
          simp only [hstate, hseqs]
          cases htier : applyTier0 db.state (call.events.map (·.event)) (List.range' db.nextSeq call.events.length) with
          | error e => exact .inl ⟨db'.nextSeq, by rw [hdb]; exact Nat.le_add_right .., rfl⟩
          | ok t' => exact .inr ⟨prepared, t', hprep, rfl, by rw [hdb]⟩

end Umd.Ledger
