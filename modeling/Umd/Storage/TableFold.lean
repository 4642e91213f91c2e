import Umd.Storage.Precedence
/-!
# Tier-0 as a fold over the table

What the reducer computes, without its in-memory state: an event is a function
of the stored rows alone (`Table.reduce`), where an entity is locked when its
marker row says so. `reduce` refines it on any state that covers the rows an
event reads (`Covers`), the whole table for a replay and the loaded rows for
the inline path.
-/

namespace Umd.Reducer

open Umd.Lib Umd.Events

/-- The rows of `current_state` by primary key. -/
abbrev Table := Key → Option ScalarRow

/-- The columns of a reduced state. -/
def columns (s : CurrentReducedState) : Table := fun k => (s.rows k).map (·.scalar)

/-- A row with these columns and nothing else. -/
def CurrentStateRow.ofScalar (r : ScalarRow) : CurrentStateRow where
  entityRef := r.entityRef
  predicate := r.predicate
  objectRef := r.objectRef
  confidence := r.confidence
  authority := r.authority
  state := r.state
  seq := r.seq

@[simp] theorem ofScalar_scalar (r : ScalarRow) : (CurrentStateRow.ofScalar r).scalar = r := rfl

namespace Table

/-- The entity's marker row is there and says `LOCKED`. -/
def isLocked (t : Table) (ref : String) : Bool := (t (ref, lockPredicate)).any fun r => r.state.isStr "LOCKED"

def rowOrSeed (t : Table) (k : Key) : ScalarRow := (t k).getD (CurrentStateRow.seed k).scalar

/-- The marker row after a lock event. -/
def marker (r : ScalarRow) (ev : SemanticEvent) (locked : Bool) : ScalarRow :=
  (lockMarker (.ofScalar r) ev locked).scalar

/-- The target row after a change event. -/
def change (r : ScalarRow) (ev : SemanticEvent) : ScalarRow := (reduceCurrentState (.ofScalar r) ev).scalar

/-- The identity row after a change event, if the fold does not raise. -/
def identity (r : ScalarRow) (ev : SemanticEvent) : Option ScalarRow :=
  (reduceCanonicalIdentity (.ofScalar r) ev).toOption.map (·.scalar)

/-- The identity row an event folds into, unless its entity is locked. -/
def identityKey (t : Table) (ev : SemanticEvent) : Option Key :=
  (identityEventTarget ev).filter fun k => !t.isLocked k.1

def reduceChange (t : Table) (ev : SemanticEvent) (target : Key) : Option Table :=
  if t.isLocked target.1 then some t
  else
    let rows := upd t target (some (change (t.rowOrSeed target) ev))
    match t.identityKey ev with
    | none => some rows
    | some k => (identity (t.rowOrSeed k) ev).map fun r => upd rows k (some r)

/-- One event on the stored rows; `none` where the fold raises. -/
def reduce (t : Table) (ev : SemanticEvent) : Option Table :=
  if isLockEvent ev.eventType then
    match entityRefOf ev with
    | some ref =>
      let k := (ref, lockPredicate)
      some (upd t k (some (marker (t.rowOrSeed k) ev (ev.eventType = .Locked))))
    | none => some t
  else
    match changeTarget ev with
    | none => some t
    | some target => t.reduceChange ev target

def reduceAll (t : Table) : List SemanticEvent → Option Table
  | [] => some t
  | ev :: evs => (t.reduce ev).bind fun t' => reduceAll t' evs

end Table

/-! ## The folds of a row see its columns alone -/

theorem applyChange_ofScalar (row : CurrentStateRow) (ev : SemanticEvent) :
    (applyChange row ev).scalar = (applyChange (.ofScalar row.scalar) ev).scalar := by
  have hout : outranked (.ofScalar row.scalar) ev (seqOn (.ofScalar row.scalar) ev) =
    outranked row ev (seqOn row ev) := rfl
  unfold applyChange
  rw [hout]
  split
  · rfl
  · split
    · rfl
    · split <;> rfl

theorem reduceCurrentState_ofScalar {row : CurrentStateRow} {ev : SemanticEvent}
    (hl : isLockEvent ev.eventType = false) (hu : row.locked = false) :
    (reduceCurrentState row ev).scalar = Table.change row.scalar ev := by
  simp only [isLockEvent, Bool.or_eq_false_iff, decide_eq_false_iff_not] at hl
  have ht : targetsRow (.ofScalar row.scalar) ev = targetsRow row ev := rfl
  have hu' : (CurrentStateRow.ofScalar row.scalar).locked = false := rfl
  simp only [Table.change, reduceCurrentState, hl.1, hl.2, if_false, hu, hu', ht, Bool.false_eq_true]
  split
  · rfl
  · split
    · rfl
    · exact applyChange_ofScalar row ev

theorem winnerMetadata_ofScalar (row : CurrentStateRow) (ev : SemanticEvent) :
    winnerMetadata (.ofScalar row.scalar) ev = winnerMetadata row ev := rfl

theorem reduceCanonicalIdentity_ofScalar (row : CurrentStateRow) (ev : SemanticEvent) :
    (reduceCanonicalIdentity row ev).toOption.map (·.scalar) = Table.identity row.scalar ev := by
  have hout : outranked (.ofScalar row.scalar) ev (seqOn (.ofScalar row.scalar) ev) =
    outranked row ev (seqOn row ev) := rfl
  have hconf : payloadConf ev (.ofScalar row.scalar) = payloadConf ev row := rfl
  unfold Table.identity reduceCanonicalIdentity
  rw [hout, winnerMetadata_ofScalar, hconf]
  split
  · rfl
  · split
    · rfl
    · cases winnerMetadata row ev with
      | error e => rfl
      | ok metadata =>
        cases payloadConf ev row with
        | error e => rfl
        | ok conf => rfl

/-! ## Events as a schema lets them through -/

/-- The event's fields name its rows as a validated payload does: a change of a
marker row is an override, a correction, a contradiction or an invalidation,
and an identity belongs to the entity the event addresses. -/
structure WellTargeted (ev : SemanticEvent) : Prop where
  markerChange : ∀ ref, eventTarget ev = some (ref, lockPredicate) →
    isOverride ev.eventType = true ∨ ev.eventType = .ContradictionRecorded ∨ ev.eventType = .Invalidated
  identityEntity : ∀ k, identityEventTarget ev = some k → entityRefOf ev = some k.1

theorem identityEventTarget_predicate {ev : SemanticEvent} {k : Key} (h : identityEventTarget ev = some k) :
    k.2 = canonicalIdentity := by
  unfold identityEventTarget at h
  split at h <;> cases h
  rfl

theorem identity_ne_marker {ev : SemanticEvent} {k : Key} (h : identityEventTarget ev = some k) (ref : String) :
    k ≠ (ref, lockPredicate) := by
  intro he
  have hk : lockPredicate = canonicalIdentity := by rw [← identityEventTarget_predicate h, he]
  exact absurd hk (by decide)

theorem WellTargeted.withSeq {ev : SemanticEvent} (h : WellTargeted ev) (n : Option Nat) :
    WellTargeted { ev with seq := n } := ⟨h.markerChange, h.identityEntity⟩

/-- No change sets a marker to a lock state. -/
theorem change_marker_state {r : ScalarRow} {ev : SemanticEvent} {ref x : String} (hw : WellTargeted ev)
    (hl : isLockEvent ev.eventType = false) (ht : eventTarget ev = some (ref, lockPredicate))
    (hx : x = "LOCKED" ∨ x = "UNLOCKED") (hr : r.state.isStr x = false) :
    (Table.change r ev).state.isStr x = false := by
  have hset : ∀ y ∈ ["USER_CONFIRMED", "CONFLICTING", "INVALIDATED"], (Json.str y).isStr x = false := by
    rcases hx with rfl | rfl <;> decide
  simp only [isLockEvent, Bool.or_eq_false_iff, decide_eq_false_iff_not] at hl
  simp only [Table.change, reduceCurrentState, hl.1, hl.2, if_false]
  split
  · exact hr
  · split
    · exact hr
    · split
      · exact hr
      · unfold applyChange
        rcases hw.markerChange ref ht with ho | ho | ho
        · rw [if_pos ho]; exact hset "USER_CONFIRMED" (by simp)
        · rw [ho]
          split
          · exact hset "USER_CONFIRMED" (by simp)
          · split
            · exact hr
            · exact hset "CONFLICTING" (by simp)
        · rw [ho]
          split
          · exact hset "USER_CONFIRMED" (by simp)
          · split
            · exact hr
            · exact hset "INVALIDATED" (by simp)

/-- A write beside a marker leaves the lock. -/
theorem Table.isLocked_upd_ne {t : Table} {k : Key} {ref : String} (r : Option ScalarRow) (hk : k ≠ (ref, lockPredicate)) :
    isLocked (upd t k r) ref = t.isLocked ref := by
  rw [isLocked, upd_ne _ _ hk.symm, isLocked]

/-- The target row of a change event on an entity that is not locked does not lock it. -/
theorem Table.isLocked_change {t : Table} {ev : SemanticEvent} {target : Key} (hw : WellTargeted ev)
    (hl : isLockEvent ev.eventType = false) (ht : eventTarget ev = some target)
    (hfree : t.isLocked target.1 = false) (ref : String) :
    isLocked (upd t target (some (change (t.rowOrSeed target) ev))) ref = t.isLocked ref := by
  by_cases hk : target = (ref, lockPredicate)
  · subst hk
    have hseed : (t.rowOrSeed (ref, lockPredicate)).state.isStr "LOCKED" = false := by
      unfold rowOrSeed
      simp only [isLocked] at hfree
      cases hm : t (ref, lockPredicate) with
      | none => rfl
      | some r => simpa [hm] using hfree
    rw [hfree, isLocked, upd_self]
    exact change_marker_state hw hl ht (.inl rfl) hseed
  · exact isLocked_upd_ne _ hk

/-- A change event leaves the locks of the table. -/
theorem Table.reduce_isLocked {t t' : Table} {ev : SemanticEvent} (hw : WellTargeted ev)
    (hl : isLockEvent ev.eventType = false) (h : t.reduce ev = some t') (ref : String) :
    t'.isLocked ref = t.isLocked ref := by
  simp only [reduce, hl, Bool.false_eq_true, if_false] at h
  cases htarget : changeTarget ev with
  | none => simp only [htarget, Option.some.injEq] at h; rw [h]
  | some target =>
    simp only [htarget, reduceChange] at h
    split at h
    · cases h; rfl
    · rename_i hfree
      have hrow := isLocked_change hw hl (changeTarget_eq htarget).1 (Bool.eq_false_iff.2 hfree) ref
      cases hid : t.identityKey ev with
      | none => simp only [hid, Option.some.injEq] at h; rw [← h, hrow]
      | some k =>
        simp only [hid, Option.map_eq_some_iff] at h
        obtain ⟨r, -, rfl⟩ := h
        rw [isLocked_upd_ne _ (identity_ne_marker (Option.filter_eq_some_iff.1 hid).1 ref), hrow]

/-- The entity's marker row is there and says `UNLOCKED`. -/
def Table.isUnlocked (t : Table) (ref : String) : Bool :=
  (t (ref, lockPredicate)).any fun r => r.state.isStr "UNLOCKED"

theorem Table.not_isUnlocked {t : Table} {ref : String} (h : t.isLocked ref = true) : t.isUnlocked ref = false := by
  unfold isLocked at h
  unfold isUnlocked
  cases hm : t (ref, lockPredicate) with
  | none => rfl
  | some r =>
    simp only [hm, Option.any_some, Json.isStr_iff] at h
    simp only [Option.any_some, h]
    rfl

/-- A change event on an entity that is not locked leaves no new unlocked marker. -/
theorem Table.isUnlocked_change {t : Table} {ev : SemanticEvent} {target : Key} (hw : WellTargeted ev)
    (hl : isLockEvent ev.eventType = false) (ht : eventTarget ev = some target) {ref : String}
    (h : t.isUnlocked ref = false) :
    isUnlocked (upd t target (some (change (t.rowOrSeed target) ev))) ref = false := by
  by_cases hk : target = (ref, lockPredicate)
  · subst hk
    have hseed : (t.rowOrSeed (ref, lockPredicate)).state.isStr "UNLOCKED" = false := by
      unfold rowOrSeed
      simp only [isUnlocked] at h
      cases hm : t (ref, lockPredicate) with
      | none => rfl
      | some r => simpa [hm] using h
    rw [isUnlocked, upd_self]
    exact change_marker_state hw hl ht (.inr rfl) hseed
  · rw [isUnlocked, upd_ne _ _ (Ne.symm hk)]
    exact h

/-- A change event leaves no new unlocked marker. -/
theorem Table.reduce_isUnlocked {t t' : Table} {ev : SemanticEvent} (hw : WellTargeted ev)
    (hl : isLockEvent ev.eventType = false) (h : t.reduce ev = some t') {ref : String} (hu : t.isUnlocked ref = false) :
    t'.isUnlocked ref = false := by
  simp only [reduce, hl, Bool.false_eq_true, if_false] at h
  cases htarget : changeTarget ev with
  | none => simp only [htarget, Option.some.injEq] at h; rw [← h]; exact hu
  | some target =>
    simp only [htarget, reduceChange] at h
    split at h
    · cases h; exact hu
    · have hrow := isUnlocked_change (t := t) hw hl (changeTarget_eq htarget).1 hu
      cases hid : t.identityKey ev with
      | none => simp only [hid, Option.some.injEq] at h; rw [← h]; exact hrow
      | some k =>
        simp only [hid, Option.map_eq_some_iff] at h
        obtain ⟨r, -, rfl⟩ := h
        rw [isUnlocked, upd_ne _ _ (identity_ne_marker (Option.filter_eq_some_iff.1 hid).1 ref).symm]
        exact hrow

/-- A lock event of an entity sets its marker. -/
theorem Table.reduce_lockEvent {t t' : Table} {ev : SemanticEvent} {ref : String} (hl : isLockEvent ev.eventType = true)
    (hr : entityRefOf ev = some ref) (h : t.reduce ev = some t') :
    t'.isLocked ref = decide (ev.eventType = .Locked) ∧ t'.isUnlocked ref = !decide (ev.eventType = .Locked) := by
  simp only [reduce, hl, if_true, hr, Option.some.injEq] at h
  subst h
  rw [isLocked, isUnlocked, upd_self]
  cases decide (ev.eventType = .Locked) <;> exact ⟨rfl, rfl⟩

/-- An event that writes no marker of `ref` leaves its lock. -/
theorem Table.marker_frame {t t' : Table} {ref : String} (h : t' (ref, lockPredicate) = t (ref, lockPredicate)) :
    t'.isLocked ref = t.isLocked ref ∧ t'.isUnlocked ref = t.isUnlocked ref := by
  simp only [isLocked, isUnlocked, h, and_self]

/-! ## What one event does to the rows -/

/-- What an event may make of a row it writes. -/
structure Touched (ev : SemanticEvent) (r r' : ScalarRow) : Prop where
  key : (r'.entityRef, r'.predicate) = (r.entityRef, r.predicate)
  seq : ∀ n, ev.seq = some n → r'.seq = r.seq ∨ r'.seq = n
  override : isLockEvent ev.eventType = false → r.authority = .str userOverride →
    r' = r ∨ isOverride ev.eventType = true ∨ ev.authority = some userOverride

theorem Folded.touched {ev : SemanticEvent} {r : ScalarRow} {row : CurrentStateRow} (h : Folded ev (.ofScalar r) row) :
    Touched ev r row.scalar where
  key := h.key
  seq n hn := by
    rcases h.wins with he | ⟨he, -⟩
    · exact .inl (by rw [he]; rfl)
    · exact .inr (by rw [CurrentStateRow.scalar, he, seqOn, hn]; rfl)
  override _ hu := (h.override hu).imp_left fun he => by rw [he]; rfl

theorem marker_touched (r : ScalarRow) (ev : SemanticEvent) (hl : isLockEvent ev.eventType = true) (locked : Bool) :
    Touched ev r (Table.marker r ev locked) where
  key := rfl
  seq n hn := by
    simp only [Table.marker, lockMarker, CurrentStateRow.scalar, hn, Option.getD_some]
    split
    · exact .inl rfl
    · exact .inr rfl
  override h := by rw [hl] at h; cases h

/-- An event touches rows it writes, and no other. -/
theorem Table.reduce_rows {t t' : Table} {ev : SemanticEvent} (h : t.reduce ev = some t') (k : Key) :
    t' k = t k ∨ (k ∈ writes ev ∧ ∃ r, t' k = some r ∧ Touched ev (t.rowOrSeed k) r) := by
  cases hl : isLockEvent ev.eventType with
  | true =>
    simp only [reduce, hl, if_true] at h
    cases hr : entityRefOf ev with
    | none => simp only [hr, Option.some.injEq] at h; rw [h]; exact .inl rfl
    | some ref =>
      simp only [hr, Option.some.injEq] at h
      subst h
      by_cases hk : k = (ref, lockPredicate)
      · subst hk
        exact .inr ⟨by rw [writes_lock hl hr]; simp, _, upd_self .., marker_touched _ ev hl _⟩
      · exact .inl (upd_ne _ _ hk)
  | false =>
    simp only [reduce, hl, Bool.false_eq_true, if_false] at h
    cases htarget : changeTarget ev with
    | none => simp only [htarget, Option.some.injEq] at h; rw [h]; exact .inl rfl
    | some target =>
      simp only [htarget, reduceChange] at h
      have hwr := writes_change hl htarget
      split at h
      · cases h; exact .inl rfl
      · have hrow : upd t target (some (change (t.rowOrSeed target) ev)) k = t k ∨ (k ∈ writes ev ∧
            ∃ r, upd t target (some (change (t.rowOrSeed target) ev)) k = some r ∧ Touched ev (t.rowOrSeed k) r) := by
          by_cases hk : k = target
          · subst hk
            exact .inr ⟨by rw [hwr]; simp, _, upd_self .., (reduceCurrentState_folded _ hl).touched⟩
          · exact .inl (upd_ne _ _ hk)
        cases hid : t.identityKey ev with
        | none => simp only [hid, Option.some.injEq] at h; rw [← h]; exact hrow
        | some ik =>
          simp only [hid, Option.map_eq_some_iff] at h
          obtain ⟨r, hr, rfl⟩ := h
          by_cases hk : k = ik
          · subst hk
            obtain ⟨row, hrow, rfl⟩ := Option.map_eq_some_iff.1 hr
            refine .inr ⟨by rw [hwr, (Option.filter_eq_some_iff.1 hid).1]; simp, _, upd_self .., ?_⟩
            cases hc : reduceCanonicalIdentity (.ofScalar (t.rowOrSeed k)) ev with
            | error e => rw [hc] at hrow; cases hrow
            | ok row' => rw [hc] at hrow; cases hrow; exact (reduceCanonicalIdentity_folded hc).touched
          · rw [upd_ne _ _ hk]; exact hrow

theorem Table.reduce_frame {t t' : Table} {ev : SemanticEvent} (h : t.reduce ev = some t') {k : Key}
    (hk : k ∉ writes ev) : t' k = t k := by
  rcases reduce_rows h k with he | ⟨hm, -⟩
  · exact he
  · exact absurd hm hk

theorem Table.reduceAll_frame {evs : List SemanticEvent} {k : Key} (hk : ∀ ev ∈ evs, k ∉ writes ev) :
    ∀ {t t' : Table}, t.reduceAll evs = some t' → t' k = t k := by
  induction evs with
  | nil => intro t t' h; cases h; rfl
  | cons ev evs ih =>
    intro t t' h
    obtain ⟨t1, h1, h2⟩ := Option.bind_eq_some_iff.1 h
    rw [ih (fun e he => hk e (by simp [he])) h2, reduce_frame h1 (hk ev (by simp))]

theorem Table.reduceAll_append (t : Table) (evs evs' : List SemanticEvent) :
    t.reduceAll (evs ++ evs') = (t.reduceAll evs).bind fun t' => t'.reduceAll evs' := by
  induction evs generalizing t with
  | nil => rfl
  | cons ev evs ih =>
    simp only [List.cons_append, reduceAll]
    cases t.reduce ev with
    | none => rfl
    | some t' => exact ih t'

/-- A property of tables that every event of the list keeps. -/
theorem Table.reduceAll_inv {I : Table → Prop} {evs : List SemanticEvent}
    (step : ∀ ev ∈ evs, ∀ t t', I t → t.reduce ev = some t' → I t') :
    ∀ {t t' : Table}, I t → t.reduceAll evs = some t' → I t' := by
  induction evs with
  | nil => intro t t' hi h; cases h; exact hi
  | cons ev evs ih =>
    intro t t' hi h
    obtain ⟨t1, h1, h2⟩ := Option.bind_eq_some_iff.1 h
    exact ih (fun e he => step e (by simp [he])) (step ev (by simp) t t1 hi h1) h2

namespace Table

/-- Every row is stored under its own key. -/
def Keyed (t : Table) : Prop := ∀ k r, t k = some r → (r.entityRef, r.predicate) = k

/-- Every row has a seq below `n`. -/
def Below (n : Nat) (t : Table) : Prop := ∀ k r, t k = some r → r.seq < n

theorem Keyed.rowOrSeed {t : Table} (h : t.Keyed) (k : Key) :
    ((t.rowOrSeed k).entityRef, (t.rowOrSeed k).predicate) = k := by
  unfold Table.rowOrSeed
  cases hk : t k with
  | none => rfl
  | some r => exact h k r hk

theorem Below.rowOrSeed {n : Nat} {t : Table} (h : t.Below n) (hn : 0 < n) (k : Key) : (t.rowOrSeed k).seq < n := by
  unfold Table.rowOrSeed
  cases hk : t k with
  | none => exact hn
  | some r => exact h k r hk

theorem Below.mono {n m : Nat} {t : Table} (h : t.Below n) (hnm : n ≤ m) : t.Below m :=
  fun k r hk => Nat.lt_of_lt_of_le (h k r hk) hnm

theorem reduce_keyed {t t' : Table} {ev : SemanticEvent} (hk : t.Keyed) (h : t.reduce ev = some t') : t'.Keyed := by
  intro k r hr
  rcases reduce_rows h k with he | ⟨-, r', hr', ht⟩
  · exact hk k r (he ▸ hr)
  · rw [hr'] at hr; cases hr; rw [ht.key]; exact hk.rowOrSeed k

theorem reduce_below {t t' : Table} {ev : SemanticEvent} {m n : Nat} (hm : ev.seq = some m) (hmn : m < n)
    (hb : t.Below n) (h : t.reduce ev = some t') : t'.Below n := by
  intro k r hr
  rcases reduce_rows h k with he | ⟨-, r', hr', ht⟩
  · exact hb k r (he ▸ hr)
  · rw [hr'] at hr; cases hr
    rcases ht.seq m hm with hs | hs
    · rw [hs]; exact hb.rowOrSeed (Nat.zero_lt_of_lt hmn) k
    · rw [hs]; exact hmn

/-- One event's effect on the locks. -/
theorem reduce_lockStep {t t' : Table} {ev : SemanticEvent} (hw : WellTargeted ev) (h : t.reduce ev = some t')
    (ref : String) : t'.isLocked ref = lockStep ref (t.isLocked ref) ev := by
  unfold lockStep
  cases hl : isLockEvent ev.eventType with
  | false => rw [reduce_isLocked hw hl h]; simp
  | true =>
    by_cases hr : entityRefOf ev = some ref
    · simp only [hr, Bool.true_and, beq_self_eq_true, if_true]
      exact (reduce_lockEvent hl hr h).1
    · have hnot : (ref, lockPredicate) ∉ writes ev := by
        cases hev : entityRefOf ev with
        | none => simp [writes, hl, hev]
        | some r =>
          rw [writes_lock hl hev, List.mem_singleton, Prod.mk.injEq]
          rintro ⟨rfl, -⟩
          exact hr hev
      simp [hr, (marker_frame (reduce_frame h hnot)).1]

theorem reduceAll_lockStep {evs : List SemanticEvent} (hw : ∀ ev ∈ evs, WellTargeted ev) :
    ∀ {t t' : Table}, t.reduceAll evs = some t' → ∀ ref, t'.isLocked ref = evs.foldl (lockStep ref) (t.isLocked ref) := by
  induction evs with
  | nil => intro t t' h ref; cases h; rfl
  | cons ev evs ih =>
    intro t t' h ref
    obtain ⟨t1, h1, h2⟩ := Option.bind_eq_some_iff.1 h
    rw [ih (fun e he => hw e (by simp [he])) h2 ref, reduce_lockStep (hw ev (by simp)) h1, List.foldl_cons]

/-- An event leaves no row behind. -/
theorem reduce_some {t t' : Table} {ev : SemanticEvent} (h : t.reduce ev = some t') {k : Key} (hk : (t k).isSome) :
    (t' k).isSome := by
  rcases reduce_rows h k with he | ⟨-, r, hr, -⟩
  · rw [he]; exact hk
  · rw [hr]; rfl

theorem reduceAll_keyed {t t' : Table} {evs : List SemanticEvent} (hk : t.Keyed) (h : t.reduceAll evs = some t') :
    t'.Keyed := reduceAll_inv (fun _ _ _ _ hi he => reduce_keyed hi he) hk h

theorem reduceAll_below {t t' : Table} {evs : List SemanticEvent} {n : Nat}
    (hn : ∀ ev ∈ evs, ∃ m, ev.seq = some m ∧ m < n) (hb : t.Below n) (h : t.reduceAll evs = some t') : t'.Below n := by
  refine reduceAll_inv (I := Below n) (fun ev he t t' hi h => ?_) hb h
  obtain ⟨m, hm, hmn⟩ := hn ev he
  exact reduce_below hm hmn hi h

theorem reduceAll_some {t t' : Table} {evs : List SemanticEvent} (h : t.reduceAll evs = some t') {k : Key}
    (hk : (t k).isSome) : (t' k).isSome :=
  reduceAll_inv (I := fun t => (t k).isSome = true) (fun _ _ _ _ hi he => reduce_some he hi) hk h

end Table

/-! ## The reducer refines the table fold -/

/-- On the keys `F` the state holds what the table holds; its locked flags
belong to locked entities, and its rows to their keys. -/
structure Covers (F : Key → Prop) (s : CurrentReducedState) (t : Table) : Prop where
  rows : ∀ k, F k → columns s k = t k
  locks : ∀ ref, F (ref, lockPredicate) → s.locks ref = t.isLocked ref
  unpinned : ∀ k row, s.rows k = some row → row.locked = true → s.locks k.1 = true
  keyed : ∀ k row, s.rows k = some row → row.key = k

theorem Covers.rowOrSeed {F : Key → Prop} {s : CurrentReducedState} {t : Table} (h : Covers F s t) {k : Key} (hk : F k) :
    (s.rowOrSeed k).scalar = t.rowOrSeed k := by
  have := h.rows k hk
  unfold CurrentReducedState.rowOrSeed Table.rowOrSeed
  rw [← this, columns]
  cases s.rows k <;> rfl

theorem Covers.unlocked {F : Key → Prop} {s : CurrentReducedState} {t : Table} (h : Covers F s t) {k : Key}
    (hk : s.locks k.1 = false) : (s.rowOrSeed k).locked = false := by
  unfold CurrentReducedState.rowOrSeed
  cases hr : s.rows k with
  | none => rfl
  | some row =>
    cases hrow : row.locked with
    | false => exact hrow
    | true => rw [h.unpinned k row hr hrow] at hk; cases hk

theorem upd_columns (s : CurrentReducedState) (k : Key) (row : CurrentStateRow) :
    upd (columns s) k (some row.scalar) = columns { s with rows := upd s.rows k (some row) } := by
  funext k'
  by_cases he : k' = k
  · subst he; simp [columns]
  · rw [upd_ne _ _ he, columns, columns]
    exact congrArg _ (upd_ne _ _ he).symm

theorem Covers.rowOrSeed_key {F : Key → Prop} {s : CurrentReducedState} {t : Table} (h : Covers F s t) (k : Key) :
    (s.rowOrSeed k).key = k := by
  unfold CurrentReducedState.rowOrSeed
  cases hr : s.rows k with
  | none => rfl
  | some row => exact h.keyed k row hr

/-- Writing one row on both sides. -/
theorem Covers.write {F : Key → Prop} {s : CurrentReducedState} {t t' : Table} (h : Covers F s t) {k : Key}
    {row : CurrentStateRow} (hkey : row.key = k) (hlock : row.locked = true → s.locks k.1 = true)
    (ht : t' = upd t k (some row.scalar)) (hlocks : ∀ ref, t'.isLocked ref = t.isLocked ref) :
    Covers F { s with rows := upd s.rows k (some row) } t' := by
  subst ht
  have hrow : ∀ {k' : Key} {row' : CurrentStateRow}, upd s.rows k (some row) k' = some row' →
      (k' = k ∧ row' = row) ∨ s.rows k' = some row' := by
    intro k' row' hr
    by_cases he : k' = k
    · subst he; rw [upd_self] at hr; cases hr; exact .inl ⟨rfl, rfl⟩
    · rw [upd_ne _ _ he] at hr; exact .inr hr
  refine ⟨fun k' hk' => ?_, fun ref hr => (h.locks ref hr).trans (hlocks ref).symm, fun k' row' hr' hl' => ?_,
    fun k' row' hr' => ?_⟩
  · rw [← upd_columns]
    by_cases he : k' = k
    · subst he; rw [upd_self, upd_self]
    · rw [upd_ne _ _ he, upd_ne _ _ he, h.rows k' hk']
  · rcases hrow hr' with ⟨rfl, rfl⟩ | hr
    · exact hlock hl'
    · exact h.unpinned k' row' hr hl'
  · rcases hrow hr' with ⟨rfl, rfl⟩ | hr
    · exact hkey
    · exact h.keyed k' row' hr

/-- A state that may raise or not, and a table that may be folded or not, cover each other. -/
def CoversRes (F : Key → Prop) : Except PyError CurrentReducedState → Option Table → Prop
  | .ok s, some t => Covers F s t
  | .error _, none => True
  | _, _ => False

theorem reduceLock_covers {F : Key → Prop} {s : CurrentReducedState} {t : Table} {ev : SemanticEvent} {ref : String}
    {locked : Bool} (h : Covers F s t) (hF : F (ref, lockPredicate)) :
    Covers F (reduceLock s ev ref locked)
      (upd t (ref, lockPredicate) (some (Table.marker (t.rowOrSeed (ref, lockPredicate)) ev locked))) := by
  have hmarker : (lockMarker ((pinRows s.rows ref locked (ref, lockPredicate)).getD (.seed (ref, lockPredicate))) ev
      locked).scalar = Table.marker (t.rowOrSeed (ref, lockPredicate)) ev locked := by
    rw [← h.rowOrSeed hF, CurrentReducedState.rowOrSeed, Table.marker, pinRows]
    cases s.rows (ref, lockPredicate) <;> simp <;> rfl
  refine ⟨fun k hk => ?_, fun r hr => ?_, fun k row hr hl => ?_, fun k row hr => ?_⟩
  · by_cases he : k = (ref, lockPredicate)
    · subst he; rw [columns, reduceLock_marker, upd_self, Option.map_some, hmarker]
    · rw [upd_ne _ _ he, columns, reduceLock_rows _ _ _ _ he, pinRows_scalar, ← h.rows k hk, columns]
  · rw [reduceLock_locks]
    by_cases he : r = ref
    · subst he
      rw [upd_self, Table.isLocked, upd_self]
      cases locked <;> rfl
    · rw [upd_ne _ _ he, h.locks r hr, Table.isLocked_upd_ne _ (fun e => he (by cases e; rfl))]
  · rw [reduceLock_locks]
    by_cases he : k = (ref, lockPredicate)
    · subst he
      rw [reduceLock_marker] at hr
      cases hr
      rw [upd_self]; exact hl
    · rw [reduceLock_rows _ _ _ _ he] at hr
      obtain ⟨row', hr', rfl⟩ := Option.map_eq_some_iff.1 hr
      by_cases hk : k.1 = ref
      · rw [if_pos hk] at hl; rw [hk, upd_self]; exact hl
      · rw [if_neg hk] at hl; rw [upd_ne _ _ hk]; exact h.unpinned k row' hr' hl
  · by_cases he : k = (ref, lockPredicate)
    · subst he
      rw [reduceLock_marker] at hr
      cases hr
      show ((pinRows s.rows ref locked (ref, lockPredicate)).getD (.seed (ref, lockPredicate))).key = _
      cases hs : s.rows (ref, lockPredicate) with
      | none => simp [pinRows, hs]
      | some row => simp only [pinRows, hs, Option.map_some, Option.getD_some, if_true]; exact h.keyed _ row hs
    · rw [reduceLock_rows _ _ _ _ he] at hr
      obtain ⟨row', hr', rfl⟩ := Option.map_eq_some_iff.1 hr
      have := h.keyed k row' hr'
      split <;> exact this

theorem Covers.identityKey {F : Key → Prop} {s : CurrentReducedState} {t : Table} {ev : SemanticEvent} {target : Key}
    (h : Covers F s t) (hw : WellTargeted ev) (ht : eventTarget ev = some target)
    (hF : F (target.1, lockPredicate)) : Umd.Reducer.identityKey s ev = t.identityKey ev := by
  unfold Umd.Reducer.identityKey Table.identityKey
  cases hid : identityEventTarget ev with
  | none => rfl
  | some k =>
    have he : k.1 = target.1 := by
      have := (hw.identityEntity k hid).symm.trans (eventTarget_entity ht)
      exact Option.some.inj this
    have hlock : s.locks k.1 = t.isLocked k.1 := by rw [he]; exact h.locks _ hF
    simp only [Option.filter_some, hlock]
    cases t.isLocked k.1 <;> rfl

/-- One event: the reducer on a state that covers what the event reads does
what the fold of the table does. -/
theorem reduce_covers {F : Key → Prop} {s : CurrentReducedState} {t : Table} {ev : SemanticEvent} (h : Covers F s t)
    (hw : WellTargeted ev) (hF : ∀ k ∈ reads ev, F k) : CoversRes F (reduce s ev) (t.reduce ev) := by
  cases hl : isLockEvent ev.eventType with
  | true =>
    simp only [reduce, Table.reduce, hl, if_true]
    cases hr : entityRefOf ev with
    | none => exact h
    | some ref =>
      have hm : (ref, lockPredicate) ∈ writes ev := by rw [writes_lock hl hr]; simp
      exact reduceLock_covers h (hF _ (mem_reads_of_writes hm))
  | false =>
    simp only [reduce, Table.reduce, hl, Bool.false_eq_true, if_false, changeTarget]
    cases ht : eventTarget ev with
    | none => exact h
    | some target =>
      by_cases hstar : target.2 = "*"
      · simp only [Option.filter_some, hstar, ne_eq, not_true_eq_false, decide_false, Bool.false_eq_true, if_false,
          if_true]
        exact h
      · simp only [Option.filter_some, hstar, ne_eq, not_false_eq_true, decide_true, if_true, if_false]
        have hwr : writes ev = target :: (identityEventTarget ev).toList :=
          writes_change hl (by simp [changeTarget, ht, hstar])
        have htm : target ∈ writes ev := by rw [hwr]; simp
        have hFt := hF _ (mem_reads_of_writes htm)
        have hFl := hF _ (marker_mem_reads htm)
        unfold reduceChange Table.reduceChange
        rw [h.locks _ hFl]
        cases hfree : t.isLocked target.1 with
        | true => exact h
        | false =>
          simp only [Bool.false_eq_true, if_false, h.identityKey hw ht hFl]
          have hsfree : s.locks target.1 = false := by rw [h.locks _ hFl, hfree]
          have hfold := reduceCurrentState_folded (s.rowOrSeed target) hl
          have hkey := h.rowOrSeed_key target
          have hcol : (reduceCurrentState (s.rowOrSeed target) ev).scalar = Table.change (t.rowOrSeed target) ev := by
            rw [reduceCurrentState_ofScalar hl (h.unlocked hsfree), h.rowOrSeed hFt]
          -- the target row on both sides
          have htarget : Covers F { s with rows := upd s.rows target (some (reduceCurrentState (s.rowOrSeed target) ev)) }
              (upd t target (some (Table.change (t.rowOrSeed target) ev))) :=
            h.write (hfold.key.trans hkey)
              (fun hlk => by rw [hfold.locked, h.unlocked hsfree] at hlk; cases hlk) (by rw [hcol])
              (Table.isLocked_change hw hl ht hfree)
          cases hid : t.identityKey ev with
          | none => exact htarget
          | some k =>
            have hik := (Option.filter_eq_some_iff.1 hid)
            have hkm : k ∈ writes ev := by rw [hwr, hik.1]; simp
            have hcolk := reduceCanonicalIdentity_ofScalar (s.rowOrSeed k) ev
            rw [h.rowOrSeed (hF _ (mem_reads_of_writes hkm))] at hcolk
            simp only [← hcolk]
            cases hident : reduceCanonicalIdentity (s.rowOrSeed k) ev with
            | error e => trivial
            | ok identity =>
              have hfoldk := reduceCanonicalIdentity_folded hident
              have hkkey := h.rowOrSeed_key k
              have hklock : s.locks k.1 = false := by
                rw [h.locks _ (hF _ (marker_mem_reads hkm))]; simpa using hik.2
              exact htarget.write (hfoldk.key.trans hkkey)
                (fun hlk => by rw [hfoldk.locked, h.unlocked hklock] at hlk; cases hlk) rfl
                (fun ref => Table.isLocked_upd_ne _ (identity_ne_marker hik.1 ref))

/-- A list of events: the same for the whole fold. -/
theorem reduceAll_covers {F : Key → Prop} {evs : List SemanticEvent} :
    ∀ {s : CurrentReducedState} {t : Table}, Covers F s t → (∀ ev ∈ evs, WellTargeted ev) →
      (∀ ev ∈ evs, ∀ k ∈ reads ev, F k) → CoversRes F (reduceAll s evs) (t.reduceAll evs) := by
  induction evs with
  | nil => intro s t h _ _; exact h
  | cons ev evs ih =>
    intro s t h hw hF
    have h1 := reduce_covers h (hw ev (by simp)) (hF ev (by simp))
    simp only [reduceAll, Table.reduceAll, bind, Except.bind]
    cases hs : reduce s ev with
    | error e =>
      rw [hs] at h1
      cases ht : t.reduce ev with
      | none => trivial
      | some t' => rw [ht] at h1; exact h1.elim
    | ok s' =>
      rw [hs] at h1
      cases ht : t.reduce ev with
      | none => rw [ht] at h1; exact h1.elim
      | some t' =>
        rw [ht] at h1
        exact ih h1 (fun ev he => hw ev (by simp [he])) (fun ev he => hF ev (by simp [he]))

/-- The empty state covers the empty table. -/
theorem Covers.empty (F : Key → Prop) : Covers F {} (fun _ => none) :=
  ⟨fun _ _ => rfl, fun _ _ => rfl, nofun, nofun⟩

/-- A replay computes the fold of the empty table. -/
theorem replay_columns {evs : List SemanticEvent} (hw : ∀ ev ∈ evs, WellTargeted ev) :
    (replay evs).toOption.map columns = Table.reduceAll (fun _ => none) evs := by
  have h := reduceAll_covers (Covers.empty fun _ => True) hw (fun _ _ _ _ => trivial)
  unfold replay
  cases hs : reduceAll {} evs with
  | error e =>
    rw [hs] at h
    cases ht : Table.reduceAll (fun _ => none) evs with
    | none => rfl
    | some t => rw [ht] at h; exact h.elim
  | ok s =>
    rw [hs] at h
    cases ht : Table.reduceAll (fun _ => none) evs with
    | none => rw [ht] at h; exact h.elim
    | some t =>
      rw [ht] at h
      exact congrArg some (funext fun k => h.rows k trivial)

end Umd.Reducer
