import Umd.Lib.Steps
import Umd.Storage.InlineFold
/-!
# Tier-0 against the log

Over every sequence of appends: where the inline path keeps the rows that a
rebuild of the log computes, and where it treats an entity as locked exactly
when the entity's last lock event is a `Locked`. Each result comes with the
condition on a step that the code needs for it, and a run that breaks it.
-/

namespace Umd.Ledger

open Umd.Lib Umd.Events Umd.Reducer Umd.Projections

/-! ## The log -/

/-- The log as appends leave it: in seq order, below the next seq, and made of
accepted events. -/
structure LogOk (db : Db) : Prop where
  ordered : (db.events.map (·.seq)).Pairwise (· < ·)
  positive : ∀ r ∈ db.events, 0 < r.seq
  below : ∀ r ∈ db.events, r.seq < db.nextSeq
  start : 0 < db.nextSeq
  targeted : ∀ ev ∈ logOf db.events, WellTargeted ev

theorem LogOk.empty : LogOk {} :=
  ⟨.nil, fun _ h => absurd h List.not_mem_nil, fun _ h => absurd h List.not_mem_nil, Nat.one_pos,
    fun _ h => absurd h List.not_mem_nil⟩

theorem LogOk.skip {db : Db} (h : LogOk db) {n : Nat} (hn : db.nextSeq ≤ n) : LogOk { db with nextSeq := n } :=
  ⟨h.ordered, h.positive, fun r hr => Nat.lt_of_lt_of_le (h.below r hr) hn, Nat.lt_of_lt_of_le h.start hn, h.targeted⟩

theorem LogOk.append {db : Db} (h : LogOk db) {call : Call} {prepared : List PreparedEvent} {t : Table}
    (hp : prepareAll call.events = .ok prepared) :
    LogOk { events := db.events ++ rowsFrom call db.nextSeq (call.events.zip prepared)
            state := t
            nextSeq := db.nextSeq + call.events.length } := by
  have hnew : ∀ r ∈ rowsFrom call db.nextSeq (call.events.zip prepared),
      db.nextSeq ≤ r.seq ∧ r.seq < db.nextSeq + call.events.length := by
    intro r hr
    have hm : r.seq ∈ List.range' db.nextSeq call.events.length := by
      rw [← zip_length hp, ← rowsFrom_seq]; exact List.mem_map_of_mem hr
    rw [List.mem_range'_1] at hm
    exact hm
  refine ⟨?_, fun r hr => ?_, fun r hr => ?_, Nat.lt_of_lt_of_le h.start (Nat.le_add_right ..), ?_⟩
  · rw [List.map_append, List.pairwise_append, rowsFrom_seq]
    refine ⟨h.ordered, List.pairwise_lt_range', fun a ha b hb => ?_⟩
    obtain ⟨r, hr, rfl⟩ := List.mem_map.1 ha
    exact Nat.lt_of_lt_of_le (h.below r hr) (List.mem_range'_1.1 hb).1
  · rcases List.mem_append.1 hr with hr | hr
    · exact h.positive r hr
    · exact Nat.lt_of_lt_of_le h.start (hnew r hr).1
  · rcases List.mem_append.1 hr with hr | hr
    · exact Nat.lt_of_lt_of_le (h.below r hr) (Nat.le_add_right ..)
    · exact (hnew r hr).2
  · intro ev he
    rw [logOf_append] at he
    rcases List.mem_append.1 he with he | he
    · exact h.targeted ev he
    · exact rows_wellTargeted hp ev he

/-- The events a batch folds, as they were given. -/
theorem batch_wellTargeted {call : Call} {prepared : List PreparedEvent} (h : prepareAll call.events = .ok prepared) :
    ∀ ev ∈ call.events.map (·.event), WellTargeted ev :=
  fun ev he => (prepareAll_accepted h ev he).wellTargeted

theorem semanticWithSeqs_wellTargeted {evs : List SemanticEvent} (seqs : List Nat) (hw : ∀ ev ∈ evs, WellTargeted ev) :
    ∀ ev ∈ semanticWithSeqs evs seqs, WellTargeted ev := by
  intro ev he
  obtain ⟨e, n, hm, rfl⟩ := semanticWithSeqs_mem he
  exact (hw e (List.mem_filter.1 hm).1).withSeq _

/-- A delta that goes through is a fold of the table, stored. -/
theorem applyTier0_ok {t t' : Table} {evs : List SemanticEvent} {seqs : List Nat} (hk : t.Keyed)
    (hw : ∀ ev ∈ evs, WellTargeted ev) (hs : NoStaleLock t evs) (h : applyTier0 t evs seqs = .ok t') :
    ∃ t₁, t.reduceAll (semanticWithSeqs evs seqs) = some t₁ ∧ t' = store t t₁ := by
  have hspec := applyTier0_spec seqs hk hw hs
  rw [h] at hspec
  obtain ⟨t₁, h₁, h₂⟩ := Option.map_eq_some_iff.1 hspec.symm
  exact ⟨t₁, h₁, h₂.symm⟩

/-- Storing a fold without unlocked markers stores all of it. -/
theorem store_eq {t t' : Table} (hu : ∀ ref, t'.isUnlocked ref = false) (hs : ∀ k, (t k).isSome → (t' k).isSome) :
    store t t' = t' := by
  funext k
  unfold store
  cases hk : t' k with
  | none =>
    cases ht : t k with
    | none => rfl
    | some r => have := hs k (by rw [ht]; rfl); rw [hk] at this; cases this
  | some r =>
    by_cases hm : k.2 = lockPredicate
    · have := hu k.1
      rw [Table.isUnlocked, ← hm] at this
      simp only [hk, Option.any_some] at this
      simp [this]
    · simp [hm]

/-! ## The inline rows are the rebuilt rows -/

/-- A call of schema-valid events without an `Unlocked`. -/
def ValidLocking (_ : Db) (call : Call) : Prop :=
  call.events ≠ [] ∧ (∃ prepared, prepareAll call.events = .ok prepared) ∧
    ∀ ev ∈ call.events, ev.event.eventType ≠ .Unlocked

/-- What keeps an append faithful: no `Unlocked` in it, no first object repeated
under a fresh key, and no loaded row that says `LOCKED` of an entity that is
not. -/
def Faithful (db : Db) (call : Call) : Prop :=
  (∀ ev ∈ call.events, ev.event.eventType ≠ .Unlocked) ∧ ¬ reusesKey db call ∧
    NoStaleLock db.state (call.events.map (·.event))

/-- The stored rows are the fold of the log, without unlocked markers. -/
structure Mirrors (db : Db) : Prop where
  log : LogOk db
  fold : Table.reduceAll (fun _ => none) (logOf db.events) = some db.state
  keyed : db.state.Keyed
  locked : ∀ ref, db.state.isUnlocked ref = false

/-- A fold without `Unlocked` events leaves no unlocked marker. -/
theorem reduceAll_locked {evs : List SemanticEvent} (hw : ∀ ev ∈ evs, WellTargeted ev)
    (hn : ∀ ev ∈ evs, ev.eventType ≠ .Unlocked) {t t' : Table} (ht : ∀ ref, t.isUnlocked ref = false)
    (h : t.reduceAll evs = some t') : ∀ ref, t'.isUnlocked ref = false := by
  refine Table.reduceAll_inv (I := fun t => ∀ ref, t.isUnlocked ref = false) (fun ev he t t' hi h ref => ?_) ht h
  cases hl : isLockEvent ev.eventType with
  | false => exact Table.reduce_isUnlocked (hw ev he) hl h (hi ref)
  | true =>
    have hlocked : ev.eventType = .Locked := by
      simp only [isLockEvent, Bool.or_eq_true, decide_eq_true_eq] at hl
      exact hl.resolve_right (hn ev he)
    by_cases hr : entityRefOf ev = some ref
    · rw [(Table.reduce_lockEvent hl hr h).2, hlocked]; rfl
    · have hnot : (ref, lockPredicate) ∉ writes ev := by
        cases hev : entityRefOf ev with
        | none => simp [writes, hl, hev]
        | some r =>
          rw [writes_lock hl hev, List.mem_singleton, Prod.mk.injEq]
          rintro ⟨rfl, -⟩
          exact hr hev
      rw [(Table.marker_frame (Table.reduce_frame h hnot)).2]
      exact hi ref

theorem mirrors_preserved {db : Db} {call : Call} (h : Mirrors db) (hok : Faithful db call) :
    Mirrors (append db call).1 := by
  obtain ⟨hnounlock, hrep, hstale⟩ := hok
  rcases append_cases db call hrep with ⟨n, hn, he⟩ | ⟨prepared, t', hp, ht, he⟩ <;> rw [he]
  · exact ⟨h.log.skip hn, h.fold, h.keyed, h.locked⟩
  · have hw := batch_wellTargeted hp
    have hws := semanticWithSeqs_wellTargeted (List.range' db.nextSeq call.events.length) hw
    obtain ⟨t₁, h₁, rfl⟩ := applyTier0_ok h.keyed hw hstale ht
    have hlocked : ∀ ref, t₁.isUnlocked ref = false := by
      refine reduceAll_locked hws (fun ev he => ?_) h.locked h₁
      obtain ⟨e, m, hm, rfl⟩ := semanticWithSeqs_mem he
      obtain ⟨o, ho, rfl⟩ := List.mem_map.1 (List.mem_filter.1 hm).1
      exact hnounlock o ho
    rw [store_eq hlocked fun k => Table.reduceAll_some h₁]
    refine ⟨h.log.append hp, ?_, Table.reduceAll_keyed h.keyed h₁, hlocked⟩
    rw [logOf_append, Table.reduceAll_append, h.fold, Option.bind_some, reduceAll_alike (rowsFrom_alike _ hp), h₁]

theorem mirrors_run {db : Db} (h : Run appendStep Faithful {} db) : Mirrors db := by
  refine h.inv Mirrors ⟨.empty, rfl, nofun, fun _ => rfl⟩ fun db call db' hi hok hs => ?_
  cases hs
  exact mirrors_preserved hi hok

theorem Mirrors.rebuild {db : Db} (h : Mirrors db) : Projections.rebuild db.events = .ok db.state := by
  rw [rebuild_fold h.log.ordered h.log.positive h.log.targeted h.fold, store_eq h.locked fun k hk => by cases hk]

/-- After any appends that are each faithful, the stored rows are those a
wipe-and-replay of the log computes. -/
theorem inline_eq_rebuild {db : Db} (h : Run appendStep Faithful {} db) : rebuild db.events = .ok db.state :=
  (mirrors_run h).rebuild

/-- One faithful append. -/
theorem inline_eq_rebuild_one : ∃ db : Db, db.events.length = 1 ∧ rebuild db.events = .ok db.state := by
  refine ⟨(append {} (one .Locked [("entity_ref", .str "e")])).1, rfl, ?_⟩
  refine inline_eq_rebuild (.step .refl ⟨?_, ?_, ?_⟩ rfl)
  · simp [one]
  · exact fun h => h.1 rfl
  · exact fun k _ r hr => by cases hr

/-- A merge that stores `LOCKED`, and a second one. -/
def mergeTwice : Db :=
  let merge (target state : String) := one .EntityResolved
    [("kind", .str "MERGE"), ("entity_id", .str "e"), ("target_entity_id", .str target), ("state", .str state)]
  (append (append {} (merge "t1" "LOCKED")).1 (merge "t2" "PROBABLE")).1

/-- The inline path takes the row for a pinned one and drops the second merge;
a rebuild does not. -/
theorem stored_lock_differs : ¬ ∀ db, Run appendStep ValidLocking {} db → rebuild db.events = .ok db.state := by
  intro h
  have hrun : Run appendStep ValidLocking {} mergeTwice :=
    .step (.step .refl ⟨List.cons_ne_nil _ _, ⟨_, rfl⟩, by simp [one]⟩ rfl) ⟨List.cons_ne_nil _ _, ⟨_, rfl⟩, by simp [one]⟩ rfl
  have he := congrArg (fun t => (t.toOption.bind (· ("e", "CANONICAL_ENTITY"))).map (·.objectRef)) (h _ hrun)
  exact absurd he (by decide)

/-! ## Locks -/

/-- Whether the marker of an entity is left `UNLOCKED`: its last lock event is
an `Unlocked`, and no override of the marker follows. -/
def unlockStep (ref : String) (left : Bool) (ev : SemanticEvent) : Bool :=
  if isLockEvent ev.eventType && entityRefOf ev == some ref then ev.eventType ≠ .Locked
  else if isOverride ev.eventType && eventTarget ev == some (ref, lockPredicate) then false
  else left

def endsUnlocked (evs : List SemanticEvent) (ref : String) : Bool := evs.foldl (unlockStep ref) false

/-- What keeps the locks right: no first object repeated under a fresh key, no
loaded row that says `LOCKED` of an entity that is not, and no marker left
`UNLOCKED` over a stored one that says `LOCKED`. -/
def KeepsLocks (db : Db) (call : Call) : Prop :=
  ¬ reusesKey db call ∧ NoStaleLock db.state (call.events.map (·.event)) ∧
    ∀ ref, endsUnlocked (call.events.map (·.event)) ref = true → db.state.isLocked ref = false

/-- An override of an unlocked marker confirms it. -/
theorem override_marker {t t' : Table} {ev : SemanticEvent} {ref : String} (hk : t.Keyed)
    (ho : isOverride ev.eventType = true) (ht : eventTarget ev = some (ref, lockPredicate))
    (h : t.reduce ev = some t') : t'.isUnlocked ref = false := by
  have hl : isLockEvent ev.eventType = false := by
    simp only [isOverride, Bool.or_eq_true, decide_eq_true_eq] at ho
    rcases ho with ho | ho <;> rw [ho] <;> rfl
  have hct : changeTarget ev = some (ref, lockPredicate) := by
    rw [changeTarget, ht, Option.filter_some]
    exact if_pos rfl
  simp only [Table.reduce, hl, Bool.false_eq_true, if_false, hct, Table.reduceChange] at h
  split at h
  · cases h
    exact Table.not_isUnlocked ‹_›
  · have hrow : (Table.change (t.rowOrSeed (ref, lockPredicate)) ev).state = .str "USER_CONFIRMED" := by
      have hkey : (CurrentStateRow.ofScalar (t.rowOrSeed (ref, lockPredicate))).key = (ref, lockPredicate) :=
        hk.rowOrSeed _
      have hce : ev.eventType ∈ changeEvents := by
        simp only [isOverride, Bool.or_eq_true, decide_eq_true_eq] at ho
        rcases ho with ho | ho <;> rw [ho] <;> decide
      rw [Table.change, reduceCurrentState_applies hce (by rw [ht, hkey]) rfl, applyChange, if_pos ho]
      rfl
    have hmark : Table.isUnlocked (upd t (ref, lockPredicate)
        (some (Table.change (t.rowOrSeed (ref, lockPredicate)) ev))) ref = false := by
      rw [Table.isUnlocked, upd_self, Option.any_some, hrow]; rfl
    cases hid : t.identityKey ev with
    | none => simp only [hid, Option.some.injEq] at h; rw [← h]; exact hmark
    | some k =>
      simp only [hid, Option.map_eq_some_iff] at h
      obtain ⟨r, -, rfl⟩ := h
      rw [Table.isUnlocked, upd_ne _ _ (identity_ne_marker (Option.filter_eq_some_iff.1 hid).1 ref).symm]
      exact hmark

/-- A marker the batch leaves `UNLOCKED` is one `endsUnlocked` tells. -/
theorem reduceAll_endsUnlocked {evs : List SemanticEvent} (hw : ∀ ev ∈ evs, WellTargeted ev) (ref : String) :
    ∀ {t t' : Table} (left : Bool), t.Keyed → (t.isUnlocked ref = true → left = true) → t.reduceAll evs = some t' →
      t'.isUnlocked ref = true → evs.foldl (unlockStep ref) left = true := by
  induction evs with
  | nil => intro t t' left _ hi h hu; cases h; exact hi hu
  | cons ev evs ih =>
    intro t t' left hk hi h hu
    obtain ⟨t1, h1, h2⟩ := Option.bind_eq_some_iff.1 h
    refine ih (fun e he => hw e (by simp [he])) _ (Table.reduce_keyed hk h1) (fun hu1 => ?_) h2 hu
    unfold unlockStep
    cases hl : isLockEvent ev.eventType with
    | true =>
      by_cases hr : entityRefOf ev = some ref
      · have := (Table.reduce_lockEvent hl hr h1).2
        rw [hu1] at this
        simpa [hr] using this.symm
      · have hnot : (ref, lockPredicate) ∉ writes ev := by
          cases hev : entityRefOf ev with
          | none => simp [writes, hl, hev]
          | some r =>
            rw [writes_lock hl hev, List.mem_singleton, Prod.mk.injEq]
            rintro ⟨rfl, -⟩
            exact hr hev
        rw [(Table.marker_frame (Table.reduce_frame h1 hnot)).2] at hu1
        have hno : isOverride ev.eventType = false := by
          simp only [isLockEvent, Bool.or_eq_true, decide_eq_true_eq] at hl
          rcases hl with hl | hl <;> rw [hl] <;> rfl
        simp [hr, hno, hi hu1]
    | false =>
      have hold : t.isUnlocked ref = true := by
        by_contra hc
        rw [Table.reduce_isUnlocked (hw ev (by simp)) hl h1 (Bool.eq_false_iff.2 hc)] at hu1
        cases hu1
      by_cases ho : isOverride ev.eventType = true ∧ eventTarget ev = some (ref, lockPredicate)
      · rw [override_marker hk ho.1 ho.2 h1] at hu1; cases hu1
      · have hcond : (isOverride ev.eventType && eventTarget ev == some (ref, lockPredicate)) = false := by
          rw [Bool.eq_false_iff]
          simpa using ho
        simp [hcond, hi hold]

theorem semanticWithSeqs_cons (ev : SemanticEvent) (evs : List SemanticEvent) (n : Nat) (seqs : List Nat) :
    semanticWithSeqs (ev :: evs) (n :: seqs) =
      (if ev.isSemantic then [{ ev with seq := some n }] else []) ++ semanticWithSeqs evs seqs := by
  simp only [semanticWithSeqs, List.zip_cons_cons, List.filter_cons]
  cases ev.isSemantic <;> rfl

/-- An event outside the semantic log says nothing about a marker. -/
theorem unlockStep_not_semantic {ev : SemanticEvent} (h : ev.isSemantic = false) (ref : String) (left : Bool) :
    unlockStep ref left ev = left := by
  have he : ev.eventType = .JobRunAudit := by simpa [SemanticEvent.isSemantic] using h
  simp [unlockStep, he, isLockEvent, isOverride]

theorem semanticWithSeqs_unlockStep (ref : String) {evs : List SemanticEvent} : ∀ {seqs : List Nat} (left : Bool),
    seqs.length = evs.length →
    (semanticWithSeqs evs seqs).foldl (unlockStep ref) left = evs.foldl (unlockStep ref) left := by
  induction evs with
  | nil => intro seqs left _; rfl
  | cons ev evs ih =>
    intro seqs left hlen
    obtain ⟨n, seqs, rfl⟩ := List.exists_cons_of_length_eq_add_one hlen
    rw [semanticWithSeqs_cons, List.foldl_append, ih _ (Nat.succ.inj hlen), List.foldl_cons]
    cases hs : ev.isSemantic with
    | true => rfl
    | false => rw [unlockStep_not_semantic hs]; rfl

/-- The events that fold have some of the seqs, in order. -/
theorem semanticWithSeqs_seqs (evs : List SemanticEvent) : ∀ seqs : List Nat,
    ∃ sub : List Nat, (semanticWithSeqs evs seqs).map (·.seq) = sub.map some ∧ sub.Sublist seqs := by
  induction evs with
  | nil => exact fun seqs => ⟨[], rfl, List.nil_sublist _⟩
  | cons ev evs ih =>
    intro seqs
    cases seqs with
    | nil => exact ⟨[], rfl, List.nil_sublist _⟩
    | cons n seqs =>
      obtain ⟨sub, hs, hsub⟩ := ih seqs
      rw [semanticWithSeqs_cons]
      cases ev.isSemantic with
      | false => exact ⟨sub, by simpa using hs, hsub.cons n⟩
      | true => exact ⟨n :: sub, by simp [hs], hsub.cons_cons n⟩

/-- The locks of a stored fold are those of the fold, but for the markers left
unlocked over a locked one. -/
theorem store_isLocked {t t' : Table} {ref : String} (hs : ∀ k, (t k).isSome → (t' k).isSome) :
    Table.isLocked (store t t') ref = (t'.isLocked ref || (t'.isUnlocked ref && t.isLocked ref)) := by
  unfold Table.isLocked Table.isUnlocked store
  cases hk : t' (ref, lockPredicate) with
  | none =>
    cases ht : t (ref, lockPredicate) with
    | none => rfl
    | some r => have := hs (ref, lockPredicate) (by rw [ht]; rfl); rw [hk] at this; cases this
  | some r =>
    simp only [decide_true, Bool.true_and, Option.any_some]
    cases hu : r.state.isStr "UNLOCKED" with
    | false => simp
    | true =>
      rw [Json.isStr_iff] at hu
      rw [hu]
      simp [Json.isStr, Json.str?]

theorem store_isUnlocked {t t' : Table} {ref : String} (hs : ∀ k, (t k).isSome → (t' k).isSome)
    (h : t.isUnlocked ref = false) : Table.isUnlocked (store t t') ref = false := by
  unfold Table.isUnlocked store at *
  cases hk : t' (ref, lockPredicate) with
  | none =>
    cases ht : t (ref, lockPredicate) with
    | none => rfl
    | some r => have := hs (ref, lockPredicate) (by rw [ht]; rfl); rw [hk] at this; cases this
  | some r =>
    cases hu : r.state.isStr "UNLOCKED" with
    | false => simp [hu]
    | true => simpa [hu] using h

theorem store_keyed {t t' : Table} (hk : t.Keyed) (hk' : t'.Keyed) : Table.Keyed (store t t') := by
  intro k r hr
  unfold store at hr
  split at hr
  · exact hk k r hr
  · split at hr
    · exact hk k r hr
    · cases hr; exact hk' k r ‹_›

theorem store_below {t t' : Table} {n : Nat} (hb : t.Below n) (hb' : t'.Below n) : Table.Below n (store t t') := by
  intro k r hr
  unfold store at hr
  split at hr
  · exact hb k r hr
  · split at hr
    · exact hb k r hr
    · cases hr; exact hb' k r ‹_›

/-- The stored markers say what the log's last lock events say. -/
structure LocksFollow (db : Db) : Prop where
  log : LogOk db
  keyed : db.state.Keyed
  below : db.state.Below db.nextSeq
  stored : ∀ ref, db.state.isUnlocked ref = false
  locks : ∀ ref, db.state.isLocked ref = lastIsLocked (logOf db.events) ref

theorem alike_lockStep {evs evs' : List SemanticEvent} (h : List.Forall₂ ReadsAlike evs evs') (ref : String) :
    ∀ locked, evs'.foldl (lockStep ref) locked = evs.foldl (lockStep ref) locked := by
  induction h with
  | nil => exact fun _ => rfl
  | cons ha _ ih =>
    intro locked
    simp only [List.foldl_cons, ih, lockStep, ha.eventType, ha.entityRefOf]

theorem locksFollow_preserved {db : Db} {call : Call} (h : LocksFollow db) (hok : KeepsLocks db call) :
    LocksFollow (append db call).1 := by
  obtain ⟨hrep, hstale, hkeep⟩ := hok
  rcases append_cases db call hrep with ⟨n, hn, he⟩ | ⟨prepared, t', hp, ht, he⟩ <;> rw [he]
  · exact ⟨h.log.skip hn, h.keyed, h.below.mono hn, h.stored, h.locks⟩
  · have hw := batch_wellTargeted hp
    have hws := semanticWithSeqs_wellTargeted (List.range' db.nextSeq call.events.length) hw
    obtain ⟨t₁, h₁, rfl⟩ := applyTier0_ok h.keyed hw hstale ht
    have hsome : ∀ k, (db.state k).isSome → (t₁ k).isSome := fun k => Table.reduceAll_some h₁
    have hbelow : t₁.Below (db.nextSeq + call.events.length) := by
      refine Table.reduceAll_below (fun ev he => ?_) (h.below.mono (Nat.le_add_right ..)) h₁
      obtain ⟨seqs, hs, hsub⟩ := semanticWithSeqs_seqs (call.events.map (·.event))
        (List.range' db.nextSeq call.events.length)
      have hm : ev.seq ∈ seqs.map some := by rw [← hs]; exact List.mem_map_of_mem he
      obtain ⟨m, hm, hsm⟩ := List.mem_map.1 hm
      exact ⟨m, hsm.symm, (List.mem_range'_1.1 (hsub.mem hm)).2⟩
    refine ⟨h.log.append hp, store_keyed h.keyed (Table.reduceAll_keyed h.keyed h₁),
      store_below (h.below.mono (Nat.le_add_right ..)) hbelow, fun ref => store_isUnlocked hsome (h.stored ref),
      fun ref => ?_⟩
    have hfold : t₁.isLocked ref = lastIsLocked (logOf (db.events ++ rowsFrom call db.nextSeq (call.events.zip prepared)))
        ref := by
      rw [logOf_append, lastIsLocked_append, ← h.locks ref, alike_lockStep (rowsFrom_alike _ hp),
        Table.reduceAll_lockStep hws h₁]
    -- a marker left unlocked lies over no locked one
    have hdrop : (t₁.isUnlocked ref && db.state.isLocked ref) = false := by
      cases hu : t₁.isUnlocked ref with
      | false => rfl
      | true =>
        have hends := reduceAll_endsUnlocked hws ref false h.keyed
          (fun hc => by rw [h.stored ref] at hc; cases hc) h₁ hu
        rw [semanticWithSeqs_unlockStep ref false (by simp)] at hends
        rw [hkeep ref hends]; rfl
    rw [store_isLocked hsome, hdrop, Bool.or_false, hfold]

theorem locksFollow_run {db : Db} (h : Run appendStep KeepsLocks {} db) : LocksFollow db := by
  refine h.inv LocksFollow ⟨.empty, nofun, nofun, fun _ => rfl, fun _ => rfl⟩ fun db call db' hi hok hs => ?_
  cases hs
  exact locksFollow_preserved hi hok

/-- An event of the batch writes and reads loaded rows. -/
theorem batch_reads_loaded {evs : List SemanticEvent} {seqs : List Nat} (hw : ∀ ev ∈ evs, WellTargeted ev)
    {ev : SemanticEvent} (he : ev ∈ semanticWithSeqs evs seqs) {k : Key} (hk : k ∈ reads ev) :
    k ∈ loadedKeys (evs.filter (·.isSemantic)) := by
  obtain ⟨e, n, hm, rfl⟩ := semanticWithSeqs_mem he
  exact reads_loaded (fun ev he => hw ev (List.mem_filter.1 he).1) hm hk

/-- The state of the inline fold after the first events of a batch. -/
theorem inline_covers {db : Db} {call : Call} (h : LocksFollow db) (hstale : NoStaleLock db.state (call.events.map (·.event)))
    {prepared : List PreparedEvent} (hp : prepareAll call.events = .ok prepared) {pre post : List SemanticEvent}
    (hb : semanticWithSeqs (call.events.map (·.event)) (List.range' db.nextSeq call.events.length) = pre ++ post)
    {s : CurrentReducedState}
    (hs : reduceAll (loadAffectedState db.state ((call.events.map (·.event)).filter (·.isSemantic))) pre = .ok s) :
    ∃ t, db.state.reduceAll pre = some t ∧
      Covers (· ∈ loadedKeys ((call.events.map (·.event)).filter (·.isSemantic))) s t := by
  have hw := batch_wellTargeted hp
  have hws : ∀ ev ∈ (call.events.map (·.event)).filter (·.isSemantic), WellTargeted ev :=
    fun ev he => hw ev (List.mem_filter.1 he).1
  have hpre : ∀ ev ∈ pre, WellTargeted ev ∧
      ∀ k ∈ reads ev, k ∈ loadedKeys ((call.events.map (·.event)).filter (·.isSemantic)) := by
    intro ev he
    have hm : ev ∈ semanticWithSeqs (call.events.map (·.event)) (List.range' db.nextSeq call.events.length) := by
      rw [hb]; exact List.mem_append_left _ he
    exact ⟨semanticWithSeqs_wellTargeted _ hw ev hm, fun k hk => batch_reads_loaded hw hm hk⟩
  have hc := reduceAll_covers (load_covers h.keyed hws hstale) (fun ev he => (hpre ev he).1) (fun ev he => (hpre ev he).2)
  rw [hs] at hc
  cases ht : db.state.reduceAll pre with
  | none => rw [ht] at hc; exact hc.elim
  | some t => rw [ht] at hc; exact ⟨t, rfl, hc⟩

/-- The seq of an event of the batch, above those of the events before it. -/
theorem seq_after {pre post : List SemanticEvent} {ev : SemanticEvent} {seqs : List Nat}
    (hs : (pre ++ ev :: post).map (·.seq) = seqs.map some) (hp : seqs.Pairwise (· < ·)) :
    ∃ n, ev.seq = some n ∧ n ∈ seqs ∧ ∀ e ∈ pre, ∃ m, e.seq = some m ∧ m < n := by
  rw [List.map_append, List.map_cons] at hs
  obtain ⟨l₁, l₂, rfl, h₁, h₂⟩ := List.map_eq_append_iff.1 hs.symm
  obtain ⟨n, l₃, rfl, hn, -⟩ := List.map_eq_cons_iff.1 h₂
  refine ⟨n, hn.symm, by simp, fun e he => ?_⟩
  have hm : e.seq ∈ l₁.map some := by rw [h₁]; exact List.mem_map_of_mem he
  obtain ⟨m, hm, hsm⟩ := List.mem_map.1 hm
  exact ⟨m, hsm.symm, (List.pairwise_append.1 hp).2.2 m hm n (by simp)⟩

/-- An assertion by a machine moves an unlocked row that no user has overridden. -/
theorem assertion_changes {s : CurrentReducedState} {ev : SemanticEvent} {k : Key} {n : Nat}
    (he : ev.eventType = .SemanticAsserted) (hk : changeTarget ev = some k) (hn : ev.seq = some n)
    (hfree : s.locks k.1 = false) (hrow : (s.rowOrSeed k).locked = false) (hkey : (s.rowOrSeed k).key = k)
    (hlt : (s.rowOrSeed k).seq < n) (hauth : (s.rowOrSeed k).authority ≠ .str userOverride) :
    ∃ s', reduce s ev = .ok s' ∧ columns s' k ≠ columns s k := by
  obtain ⟨ht, hstar⟩ := changeTarget_eq hk
  have hid : identityKey s ev = none := by
    simp [identityKey, identityEventTarget, identityRef, he, Json.truthy]
  have happ : reduceCurrentState (s.rowOrSeed k) ev = assertion (s.rowOrSeed k) ev n := by
    rw [reduceCurrentState_applies (by rw [he]; decide) (by rw [ht, hkey]) hrow]
    have hseq : seqOn (s.rowOrSeed k) ev = n := by rw [seqOn, hn]; rfl
    have hauth' : (s.rowOrSeed k).authority.isStr userOverride = false := by
      rw [Bool.eq_false_iff, ne_eq, Json.isStr_iff]; exact hauth
    have hout : outranked (s.rowOrSeed k) ev n = false := by
      simp only [outranked, hauth', Bool.false_and, Bool.false_or, Bool.or_eq_false_iff, decide_eq_false_iff_not,
        beq_eq_false_iff_ne]
      omega
    rw [applyChange, he, hseq, hout]
    rfl
  refine ⟨{ s with rows := upd s.rows k (some (assertion (s.rowOrSeed k) ev n)) }, ?_, fun hc => ?_⟩
  · simp [reduce, he, isLockEvent, ht, hstar, reduceChange, hfree, hid, happ]
  · have hseq : (columns s k).map (·.seq) = some n := by rw [← hc]; simp [columns, assertion, CurrentStateRow.scalar]
    rw [columns] at hseq
    cases hr : s.rows k with
    | none => rw [hr] at hseq; cases hseq
    | some row =>
      rw [hr] at hseq
      simp only [CurrentReducedState.rowOrSeed, hr, Option.getD_some] at hlt
      simp only [Option.map_some, Option.some.injEq] at hseq
      exact absurd hseq (Nat.ne_of_lt hlt)

/-- At every change event of a batch the inline fold has its entity locked
exactly when the last lock event appended for it is a `Locked`: then the event
leaves every column, and otherwise an assertion moves its row unless a user
has overridden it. -/
def LocksByLastEvent (db : Db) (call : Call) : Prop :=
  ∀ (pre post : List SemanticEvent) (ev : SemanticEvent) (s : CurrentReducedState) (k : Key),
    (∃ prepared, prepareAll call.events = .ok prepared) →
    semanticWithSeqs (call.events.map (·.event)) (List.range' db.nextSeq call.events.length) = pre ++ ev :: post →
    reduceAll (loadAffectedState db.state ((call.events.map (·.event)).filter (·.isSemantic))) pre = .ok s →
    isLockEvent ev.eventType = false → changeTarget ev = some k →
    s.locks k.1 = lastIsLocked (logOf db.events ++ pre) k.1 ∧
    (lastIsLocked (logOf db.events ++ pre) k.1 = true → ∃ s', reduce s ev = .ok s' ∧ columns s' = columns s) ∧
    (lastIsLocked (logOf db.events ++ pre) k.1 = false → ev.eventType = .SemanticAsserted →
      (∀ row, s.rows k = some row → row.authority ≠ .str userOverride) →
      ∃ s', reduce s ev = .ok s' ∧ columns s' k ≠ columns s k)

/-- After appends that each keep the locks, one more such append locks by the
last lock event. -/
theorem locks_by_last_event {db : Db} {call : Call} (h : Run appendStep KeepsLocks {} db) (hok : KeepsLocks db call) :
    LocksByLastEvent db call := by
  rintro pre post ev s k ⟨prepared, hp⟩ hb hs hl hk
  have hinv := locksFollow_run h
  obtain ⟨t, ht, hc⟩ := inline_covers hinv hok.2.1 hp hb hs
  have hw := batch_wellTargeted hp
  have hmem : ∀ e, e ∈ pre ++ ev :: post → WellTargeted e := fun e he => by
    rw [← hb] at he; exact semanticWithSeqs_wellTargeted _ hw e he
  have hm : ev ∈ semanticWithSeqs (call.events.map (·.event)) (List.range' db.nextSeq call.events.length) := by
    rw [hb]; simp
  have hwr : k ∈ writes ev := by rw [writes_change hl hk]; simp
  have hF := batch_reads_loaded hw hm (marker_mem_reads hwr)
  have hlocks : s.locks k.1 = lastIsLocked (logOf db.events ++ pre) k.1 := by
    rw [hc.locks _ hF, lastIsLocked_append, ← hinv.locks,
      Table.reduceAll_lockStep (fun e he => hmem e (by simp [he])) ht]
  refine ⟨hlocks, fun hlast => ⟨s, ?_, rfl⟩, fun hlast he hauth => ?_⟩
  · obtain ⟨het, hstar⟩ := changeTarget_eq hk
    simp [reduce, hl, het, hstar, reduceChange, hlocks.trans hlast]
  · have hfree := hlocks.trans hlast
    obtain ⟨seqs, hsq, hsub⟩ := semanticWithSeqs_seqs (call.events.map (·.event))
      (List.range' db.nextSeq call.events.length)
    rw [hb] at hsq
    have hsb : ∀ m ∈ seqs, db.nextSeq ≤ m := fun m hm => (List.mem_range'_1.1 (hsub.mem hm)).1
    obtain ⟨n, hn, hmem', hpre⟩ := seq_after hsq (List.Pairwise.sublist hsub List.pairwise_lt_range')
    have hbelow : t.Below n :=
      Table.reduceAll_below hpre (hinv.below.mono (hsb n hmem')) ht
    have hseed : (s.rowOrSeed k).scalar = t.rowOrSeed k :=
      hc.rowOrSeed (batch_reads_loaded hw hm (mem_reads_of_writes hwr))
    have hlt : (s.rowOrSeed k).seq < n := by
      have := hbelow.rowOrSeed (Nat.lt_of_lt_of_le hinv.log.start (hsb n hmem')) k
      rw [← hseed] at this
      exact this
    refine assertion_changes he hk hn hfree (hc.unlocked hfree) (hc.rowOrSeed_key k) hlt ?_
    unfold CurrentReducedState.rowOrSeed
    cases hr : s.rows k with
    | none => exact fun hstate => by cases hstate
    | some row => exact hauth row hr

/-- An assertion about a locked entity. -/
theorem locks_by_last_event_locked :
    LocksByLastEvent (append {} (one .Locked [("entity_ref", .str "e")])).1
      (one .SemanticAsserted [("predicate_code", .str "SPEAKS"), ("subject_ref", .str "e"), ("scope", .str "GLOBAL")]) := by
  refine locks_by_last_event (.step .refl ⟨fun h => h.1 rfl, fun k _ r hr => (by cases hr), fun _ _ => rfl⟩ rfl)
    ⟨fun h => h.1 rfl, fun k hk r hr hlocked => ?_, fun ref h => ?_⟩
  · have hk' : k ∈ [("e", "*LOCK*"), ("e", "SPEAKS")] := hk
    rcases List.mem_cons.1 hk' with rfl | hk'
    · rfl
    · rw [List.mem_singleton.1 hk'] at hr
      cases hr
  · exact absurd h (by simp [endsUnlocked, unlockStep, one, isLockEvent, isOverride])

/-- A lock, and its release in a later append. -/
def lockThenUnlock : Db :=
  (append (append {} (one .Locked [("entity_ref", .str "e")])).1 (one .Unlocked [("entity_ref", .str "e")])).1

/-- The stored marker is not dropped: the entity stays locked. -/
theorem unlocked_stays_locked : ¬ ∀ db call, Run appendStep Any {} db → LocksByLastEvent db call := by
  intro h
  have hrun : Run appendStep Any {} lockThenUnlock := .step (.step .refl trivial rfl) trivial rfl
  have he := (h _ (one .SemanticAsserted
    [("predicate_code", .str "SPEAKS"), ("subject_ref", .str "e"), ("scope", .str "GLOBAL")]) hrun
    [] [] _ _ ("e", "SPEAKS") ⟨_, rfl⟩ rfl rfl rfl rfl).1
  exact absurd he (by decide)

end Umd.Ledger
