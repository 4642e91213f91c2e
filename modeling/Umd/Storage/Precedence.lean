import Umd.Storage.Reducer
/-!
# Locks, authority and order of the reducer

What one event does to a row, for both folds: the row stays as it is, or it
takes the event's seq past the guards (`Folded`). From this every step of a
replay in seq order respects locks and user overrides, and no row goes back
to a lower seq.
-/

namespace Umd.Reducer

open Umd.Lib Umd.Events

/-! ## The rows of an event -/

/-- The row a change event targets. -/
def changeTarget (ev : SemanticEvent) : Option Key := (eventTarget ev).filter fun target => target.2 ≠ "*"

/-- The rows an event writes. -/
def writes (ev : SemanticEvent) : List Key :=
  if isLockEvent ev.eventType then
    match entityRefOf ev with
    | some ref => [(ref, lockPredicate)]
    | none => []
  else
    match changeTarget ev with
    | none => []
    | some target => target :: (identityEventTarget ev).toList

/-- The rows an event reads: those it writes, and the markers of their entities. -/
def reads (ev : SemanticEvent) : List Key := (writes ev).flatMap fun k => [k, (k.1, lockPredicate)]

theorem mem_reads_of_writes {ev : SemanticEvent} {k : Key} (h : k ∈ writes ev) : k ∈ reads ev :=
  List.mem_flatMap.2 ⟨k, h, by simp⟩

theorem marker_mem_reads {ev : SemanticEvent} {k : Key} (h : k ∈ writes ev) : (k.1, lockPredicate) ∈ reads ev :=
  List.mem_flatMap.2 ⟨k, h, by simp⟩

theorem writes_lock {ev : SemanticEvent} {ref : String} (hl : isLockEvent ev.eventType = true)
    (hr : entityRefOf ev = some ref) : writes ev = [(ref, lockPredicate)] := by simp [writes, hl, hr]

theorem writes_change {ev : SemanticEvent} {target : Key} (hl : isLockEvent ev.eventType = false)
    (ht : changeTarget ev = some target) : writes ev = target :: (identityEventTarget ev).toList := by
  simp [writes, hl, ht]

theorem eventTarget_entity {ev : SemanticEvent} {k : Key} (h : eventTarget ev = some k) : entityRefOf ev = some k.1 := by
  unfold eventTarget at h
  split at h
  · cases h
  · cases hr : entityRefOf ev with
    | none => simp [hr] at h
    | some ref =>
      simp only [hr] at h
      split at h
      · cases h; rfl
      · split at h
        · split at h
          · cases h; rfl
          · split at h <;> cases h
            rfl
        · cases h; rfl

theorem changeTarget_eq {ev : SemanticEvent} {k : Key} (h : changeTarget ev = some k) :
    eventTarget ev = some k ∧ k.2 ≠ "*" := by
  unfold changeTarget at h
  rw [Option.filter_eq_some_iff] at h
  exact ⟨h.1, by simpa using h.2⟩

/-! ## One row -/

/-- What a fold of `ev` may make of `row`. -/
structure Folded (ev : SemanticEvent) (row row' : CurrentStateRow) : Prop where
  key : row'.key = row.key
  locked : row'.locked = row.locked
  wins : row' = row ∨
    (row'.seq = seqOn row ev ∧ (isOverride ev.eventType = true ∨ outranked row ev (seqOn row ev) = false))

theorem Folded.refl (ev : SemanticEvent) (row : CurrentStateRow) : Folded ev row row := ⟨rfl, rfl, .inl rfl⟩

@[simp] theorem seed_key (k : Key) : (CurrentStateRow.seed k).key = k := rfl
@[simp] theorem seed_locked (k : Key) : (CurrentStateRow.seed k).locked = false := rfl
@[simp] theorem seed_seq (k : Key) : (CurrentStateRow.seed k).seq = 0 := rfl
@[simp] theorem seed_authority (k : Key) : (CurrentStateRow.seed k).authority = .null := rfl

theorem applyChange_folded (row : CurrentStateRow) (ev : SemanticEvent) : Folded ev row (applyChange row ev) := by
  unfold applyChange
  split
  · exact ⟨rfl, rfl, .inr ⟨rfl, .inl ‹_›⟩⟩
  · split
    · exact .refl ev row
    · rename_i hout
      have hwin := Bool.eq_false_iff.2 hout
      split <;> exact ⟨rfl, rfl, .inr ⟨rfl, .inr hwin⟩⟩

theorem reduceCurrentState_folded (row : CurrentStateRow) {ev : SemanticEvent} (hl : isLockEvent ev.eventType = false) :
    Folded ev row (reduceCurrentState row ev) := by
  simp only [isLockEvent, Bool.or_eq_false_iff, decide_eq_false_iff_not] at hl
  simp only [reduceCurrentState, hl.1, hl.2, if_false]
  split
  · exact .refl ev row
  · split
    · exact .refl ev row
    · split
      · exact .refl ev row
      · exact applyChange_folded row ev

theorem reduceCanonicalIdentity_folded {row row' : CurrentStateRow} {ev : SemanticEvent}
    (h : reduceCanonicalIdentity row ev = .ok row') : Folded ev row row' := by
  unfold reduceCanonicalIdentity at h
  split at h
  · cases h; exact .refl ev row
  · rename_i hout
    have hwin := Bool.eq_false_iff.2 hout
    split at h
    · cases h; exact ⟨rfl, rfl, .inr ⟨rfl, .inr hwin⟩⟩
    · cases hm : winnerMetadata row ev with
      | error e => simp [hm, bind, Except.bind] at h
      | ok metadata =>
        cases hc : payloadConf ev row with
        | error e => simp [hm, hc, bind, Except.bind] at h
        | ok conf =>
          simp only [hm, hc, bind, Except.bind, pure, Except.pure, Except.ok.injEq] at h
          subst h
          exact ⟨rfl, rfl, .inr ⟨rfl, .inr hwin⟩⟩

/-- A change event on its own row, when the row is not pinned. -/
theorem reduceCurrentState_applies {row : CurrentStateRow} {ev : SemanticEvent} (hc : ev.eventType ∈ changeEvents)
    (ht : eventTarget ev = some row.key) (hu : row.locked = false) :
    reduceCurrentState row ev = applyChange row ev := by
  have hl : ev.eventType ≠ .Locked ∧ ev.eventType ≠ .Unlocked := by
    constructor <;> intro he <;> rw [he] at hc <;> exact absurd hc (by decide)
  have htr : targetsRow row ev = true := by simp [targetsRow, ht, CurrentStateRow.key]
  rw [reduceCurrentState, if_neg hl.1, if_neg hl.2, if_neg (by rw [hu]; exact Bool.false_ne_true),
    if_neg (not_not_intro hc), if_neg (by rw [htr]; exact Bool.false_ne_true)]

/-- A fold leaves a user override alone unless the event overrides it. -/
theorem Folded.override {ev : SemanticEvent} {row row' : CurrentStateRow} (h : Folded ev row row')
    (hu : row.authority = .str userOverride) :
    row' = row ∨ isOverride ev.eventType = true ∨ ev.authority = some userOverride := by
  rcases h.wins with h | ⟨-, h | h⟩
  · exact .inl h
  · exact .inr (.inl h)
  · simp only [outranked, Json.isStr_iff.2 hu, byUser, Bool.true_and, Bool.or_eq_false_iff] at h
    exact .inr (.inr (by simpa using h.1.1))

/-- A fold of an event that is not older than the row keeps the seqs in order. -/
theorem Folded.seq_le {ev : SemanticEvent} {row row' : CurrentStateRow} {n : Nat} (h : Folded ev row row')
    (hn : ev.seq = some n) (hle : row.seq ≤ n) : row.seq ≤ row'.seq ∧ row'.seq ≤ n := by
  rcases h.wins with h | ⟨h, -⟩
  · subst h; exact ⟨Nat.le_refl _, hle⟩
  · rw [h, seqOn, hn]; exact ⟨hle, Nat.le_refl _⟩

/-! ## One event -/

/-- An event that is no lock event leaves the lock map, and folds into rows of
entities that are not locked. -/
theorem reduce_change {s s' : CurrentReducedState} {ev : SemanticEvent} (hl : isLockEvent ev.eventType = false)
    (h : reduce s ev = .ok s') :
    s'.locks = s.locks ∧ ∀ k, s'.rows k = s.rows k ∨
      (k ∈ writes ev ∧ s.locks k.1 = false ∧ ∃ row, s'.rows k = some row ∧ Folded ev (s.rowOrSeed k) row) := by
  simp only [reduce, hl, Bool.false_eq_true, if_false] at h
  split at h
  · cases h; exact ⟨rfl, fun _ => .inl rfl⟩
  · rename_i target ht
    split at h
    · cases h; exact ⟨rfl, fun _ => .inl rfl⟩
    · rename_i hstar
      have hwr : writes ev = target :: (identityEventTarget ev).toList :=
        writes_change hl (by simp [changeTarget, ht, hstar])
      unfold reduceChange at h
      split at h
      · cases h; exact ⟨rfl, fun _ => .inl rfl⟩
      · rename_i hunlocked
        have htarget : s.locks target.1 = false := Bool.eq_false_iff.2 hunlocked
        -- the target row alone
        have hrow : ∀ k, upd s.rows target (some (reduceCurrentState (s.rowOrSeed target) ev)) k = s.rows k ∨
            (k ∈ writes ev ∧ s.locks k.1 = false ∧ ∃ row, upd s.rows target (some (reduceCurrentState (s.rowOrSeed target) ev)) k =
              some row ∧ Folded ev (s.rowOrSeed k) row) := by
          intro k
          by_cases hk : k = target
          · subst hk; exact .inr ⟨by rw [hwr]; simp, htarget, _, upd_self .., reduceCurrentState_folded _ hl⟩
          · exact .inl (upd_ne _ _ hk)
        cases hid : identityKey s ev with
        | none =>
          simp only [hid, Except.ok.injEq] at h
          subst h; exact ⟨rfl, hrow⟩
        | some ik =>
          have hik : identityEventTarget ev = some ik ∧ s.locks ik.1 = false := by
            unfold identityKey at hid
            split at hid
            · split at hid
              · cases hid
              · cases hid; exact ⟨‹_›, Bool.eq_false_iff.2 ‹_›⟩
            · cases hid
          cases hident : reduceCanonicalIdentity (s.rowOrSeed ik) ev with
          | error e => simp [hid, hident, bind, Except.bind] at h
          | ok identity =>
            simp only [hid, hident, bind, Except.bind, pure, Except.pure, Except.ok.injEq] at h
            subst h
            refine ⟨rfl, fun k => ?_⟩
            by_cases hk : k = ik
            · subst hk
              exact .inr ⟨by rw [hwr, hik.1]; simp, hik.2, _, upd_self .., reduceCanonicalIdentity_folded hident⟩
            · simp only [upd_ne _ _ hk]; exact hrow k

/-- A lock event without an entity does nothing; one of `ref` sets its lock,
pins or releases its rows, and writes its marker. -/
theorem reduce_lock {s s' : CurrentReducedState} {ev : SemanticEvent} (hl : isLockEvent ev.eventType = true)
    (h : reduce s ev = .ok s') :
    (entityRefOf ev = none ∧ s' = s) ∨
      ∃ ref, entityRefOf ev = some ref ∧ s' = reduceLock s ev ref (ev.eventType = .Locked) := by
  simp only [reduce, hl, if_true] at h
  split at h <;> cases h
  · exact .inr ⟨_, ‹_›, rfl⟩
  · exact .inl ⟨‹_›, rfl⟩

theorem reduceLock_marker (s : CurrentReducedState) (ev : SemanticEvent) (ref : String) (locked : Bool) :
    (reduceLock s ev ref locked).rows (ref, lockPredicate) =
      some (lockMarker ((pinRows s.rows ref locked (ref, lockPredicate)).getD (.seed (ref, lockPredicate))) ev locked) :=
  upd_self ..

theorem reduceLock_rows (s : CurrentReducedState) (ev : SemanticEvent) (ref : String) (locked : Bool) {k : Key}
    (hk : k ≠ (ref, lockPredicate)) : (reduceLock s ev ref locked).rows k = pinRows s.rows ref locked k :=
  upd_ne _ _ hk

@[simp] theorem reduceLock_locks (s : CurrentReducedState) (ev : SemanticEvent) (ref : String) (locked : Bool) :
    (reduceLock s ev ref locked).locks = upd s.locks ref locked := rfl

/-- Pinning changes no column. -/
theorem pinRows_scalar (rows : Key → Option CurrentStateRow) (ref : String) (locked : Bool) (k : Key) :
    (pinRows rows ref locked k).map (·.scalar) = (rows k).map (·.scalar) := by
  simp only [pinRows, Option.map_map]
  congr 1
  funext row
  simp only [Function.comp]
  split <;> rfl

theorem pinRows_getD_seq (rows : Key → Option CurrentStateRow) (ref : String) (locked : Bool) (k : Key) :
    ((pinRows rows ref locked k).getD (.seed k)).seq = ((rows k).getD (.seed k)).seq := by
  cases h : rows k with
  | none => simp [pinRows, h]
  | some row => simp only [pinRows, h, Option.map_some, Option.getD_some]; split <;> rfl

/-! ## Runs of the fold -/

/-- The events come with seqs that increase. -/
def InSeqOrder (evs : List SemanticEvent) : Prop :=
  ∃ seqs : List Nat, evs.map (·.seq) = seqs.map some ∧ seqs.Pairwise (· < ·)

/-- The lock of an entity after the event. -/
def lockStep (ref : String) (locked : Bool) (ev : SemanticEvent) : Bool :=
  if isLockEvent ev.eventType && entityRefOf ev == some ref then ev.eventType = .Locked else locked

/-- The entity's last lock event is a `Locked`. -/
def lastIsLocked (evs : List SemanticEvent) (ref : String) : Bool := evs.foldl (lockStep ref) false

theorem lastIsLocked_append (evs evs' : List SemanticEvent) (ref : String) :
    lastIsLocked (evs ++ evs') ref = evs'.foldl (lockStep ref) (lastIsLocked evs ref) := by
  simp [lastIsLocked, List.foldl_append]

/-- One event's effect on the lock map. -/
theorem reduce_locks {s s' : CurrentReducedState} {ev : SemanticEvent} (h : reduce s ev = .ok s') (ref : String) :
    s'.locks ref = lockStep ref (s.locks ref) ev := by
  unfold lockStep
  cases hl : isLockEvent ev.eventType with
  | false => rw [(reduce_change hl h).1]; simp
  | true =>
    rcases reduce_lock hl h with ⟨hr, rfl⟩ | ⟨r, hr, rfl⟩
    · simp [hr]
    · by_cases hrr : ref = r
      · subst hrr; simp [hr]
      · simp [hr, upd_ne _ _ hrr, Ne.symm hrr]

theorem reduceAll_append (s : CurrentReducedState) (evs evs' : List SemanticEvent) :
    reduceAll s (evs ++ evs') = (reduceAll s evs).bind fun s' => reduceAll s' evs' := by
  induction evs generalizing s with
  | nil => rfl
  | cons ev evs ih =>
    simp only [List.cons_append, reduceAll, bind, Except.bind]
    cases reduce s ev with
    | error e => rfl
    | ok s' => exact ih s'

/-- Every step of a fold keeps what every single event keeps. -/
theorem reduceAll_inv {I : List SemanticEvent → CurrentReducedState → Prop}
    (step : ∀ pre s ev s', I pre s → reduce s ev = .ok s' → I (pre ++ [ev]) s') :
    ∀ (evs pre : List SemanticEvent) (s s' : CurrentReducedState), I pre s → reduceAll s evs = .ok s' →
      I (pre ++ evs) s' := by
  intro evs
  induction evs with
  | nil => intro pre s s' h hr; cases hr; simpa using h
  | cons ev evs ih =>
    intro pre s s' h hr
    simp only [reduceAll, bind, Except.bind] at hr
    cases h1 : reduce s ev with
    | error e => simp [h1] at hr
    | ok s1 =>
      simp only [h1] at hr
      simpa using ih (pre ++ [ev]) s1 s' (step pre s ev s1 h h1) hr

theorem replay_locks {evs : List SemanticEvent} {s : CurrentReducedState} (h : replay evs = .ok s) (ref : String) :
    s.locks ref = lastIsLocked evs ref := by
  have := reduceAll_inv (I := fun pre s => ∀ ref, s.locks ref = lastIsLocked pre ref)
    (fun pre s ev s' ih hr ref => by rw [reduce_locks hr, lastIsLocked_append, ih]; rfl) evs [] {} s (fun _ => rfl) h
  exact this ref

/-- No row is ahead of `n`. -/
def RowsUpTo (n : Nat) (s : CurrentReducedState) : Prop := ∀ k row, s.rows k = some row → row.seq ≤ n

theorem RowsUpTo.mono {n m : Nat} {s : CurrentReducedState} (h : RowsUpTo n s) (hnm : n ≤ m) : RowsUpTo m s :=
  fun k row hk => Nat.le_trans (h k row hk) hnm

theorem RowsUpTo.rowOrSeed {n : Nat} {s : CurrentReducedState} (h : RowsUpTo n s) (k : Key) :
    (s.rowOrSeed k).seq ≤ n := by
  unfold CurrentReducedState.rowOrSeed
  cases hk : s.rows k with
  | none => simp
  | some row => exact h k row hk

/-- One event in order: no row goes back, and none gets ahead of the event. -/
theorem reduce_seq {s s' : CurrentReducedState} {ev : SemanticEvent} {n : Nat} (hn : ev.seq = some n)
    (hb : RowsUpTo n s) (h : reduce s ev = .ok s') :
    RowsUpTo n s' ∧ ∀ k row, s.rows k = some row → ∃ row', s'.rows k = some row' ∧ row.seq ≤ row'.seq := by
  suffices hk : ∀ k, (∀ row', s'.rows k = some row' → row'.seq ≤ n) ∧
      ∀ row, s.rows k = some row → ∃ row', s'.rows k = some row' ∧ row.seq ≤ row'.seq from
    ⟨fun k => (hk k).1, fun k => (hk k).2⟩
  intro k
  cases hl : isLockEvent ev.eventType with
  | false =>
    rcases (reduce_change hl h).2 k with he | ⟨-, -, row', hr', hf⟩
    · rw [he]; exact ⟨hb k, fun row hr => ⟨row, hr, Nat.le_refl _⟩⟩
    · have hle := hf.seq_le hn (hb.rowOrSeed k)
      refine ⟨fun r hr => by rw [hr'] at hr; cases hr; exact hle.2, fun row hr => ⟨row', hr', ?_⟩⟩
      simpa [CurrentReducedState.rowOrSeed, hr] using hle.1
  | true =>
    rcases reduce_lock hl h with ⟨-, rfl⟩ | ⟨ref, -, rfl⟩
    · exact ⟨hb k, fun row hr => ⟨row, hr, Nat.le_refl _⟩⟩
    · by_cases hk : k = (ref, lockPredicate)
      · subst hk
        rw [reduceLock_marker]
        -- the marker takes the event's seq, or keeps its own where that is 0
        have hseq := pinRows_getD_seq s.rows ref (ev.eventType = .Locked) (ref, lockPredicate)
        have hup := hb.rowOrSeed (ref, lockPredicate)
        unfold CurrentReducedState.rowOrSeed at hup
        constructor
        · intro row' hr'
          cases hr'
          simp only [lockMarker, hn, Option.getD_some]
          split
          · rw [hseq]; exact hup
          · exact Nat.le_refl _
        · intro row hr
          refine ⟨_, rfl, ?_⟩
          simp only [lockMarker, hn, Option.getD_some]
          split
          · rw [hseq, hr]; simp
          · exact hb _ _ hr
      · rw [reduceLock_rows _ _ _ _ hk]
        constructor
        · intro row' hr'
          obtain ⟨row, hr, rfl⟩ := Option.map_eq_some_iff.1 hr'
          have := hb k row hr
          split <;> exact this
        · intro row hr
          refine ⟨_, by rw [pinRows, hr]; rfl, ?_⟩
          split <;> exact Nat.le_refl _

theorem InSeqOrder.nil : InSeqOrder [] := ⟨[], rfl, .nil⟩

/-- The last event's seq is above those before it. -/
theorem InSeqOrder.append_one {evs : List SemanticEvent} {ev : SemanticEvent} (h : InSeqOrder (evs ++ [ev])) :
    InSeqOrder evs ∧ ∃ n, ev.seq = some n ∧ ∀ e ∈ evs, ∀ m, e.seq = some m → m < n := by
  obtain ⟨seqs, hs, ho⟩ := h
  rw [List.map_append] at hs
  obtain ⟨l₁, l₂, rfl, h₁, h₂⟩ := List.append_eq_map_iff.1 hs
  obtain ⟨n, rfl⟩ := List.length_eq_one_iff.1 (by simpa using congrArg List.length h₂ : l₂.length = 1)
  have hn : ev.seq = some n := by simpa using h₂.symm
  have ho' := List.pairwise_append.1 ho
  refine ⟨⟨l₁, h₁.symm, ho'.1⟩, n, hn, fun e he m hm => ?_⟩
  have : some m ∈ l₁.map some := by rw [h₁]; exact List.mem_map.2 ⟨e, he, hm⟩
  obtain ⟨m', hm', he'⟩ := List.mem_map.1 this
  cases he'
  exact ho'.2.2 m hm' n (by simp)

/-- After a replay in order no row is ahead of the events replayed. -/
theorem replay_rowsUpTo {evs : List SemanticEvent} (ho : InSeqOrder evs) :
    ∀ {s : CurrentReducedState}, replay evs = .ok s → ∀ n, (∀ e ∈ evs, ∀ m, e.seq = some m → m ≤ n) →
      RowsUpTo n s := by
  induction evs using List.reverseRecOn with
  | nil =>
    intro s h n _
    cases h
    exact fun k row hr => by cases hr
  | append_singleton evs ev ih =>
    intro s h n hn
    obtain ⟨ho', m, hm, hlt⟩ := ho.append_one
    rw [replay, reduceAll_append] at h
    cases h1 : reduceAll {} evs with
    | error e => simp [h1, Except.bind] at h
    | ok s1 =>
      simp only [h1, Except.bind, reduceAll, bind] at h
      cases h2 : reduce s1 ev with
      | error e => simp [h2] at h
      | ok s2 =>
        simp only [h2, Except.ok.injEq] at h
        subst h
        have hb : RowsUpTo m s1 := ih ho' h1 m fun e he m' hm' => Nat.le_of_lt (hlt e he m' hm')
        exact (reduce_seq hm hb h2).1.mono (hn ev (by simp) m hm)

/-- Each step of a replay in seq order: a locked entity's rows keep their
columns but for its marker, a user override changes only by a marker update, an
override, a correction or an event of that authority, and no row goes back. -/
theorem replay_step_precedence (pre : List SemanticEvent) (ev : SemanticEvent) (s s' : CurrentReducedState)
    (ho : InSeqOrder (pre ++ [ev])) (hs : replay pre = .ok s) (h : reduce s ev = .ok s') :
    (∀ k, lastIsLocked pre k.1 = true → k.2 ≠ lockPredicate →
      (s'.rows k).map (·.scalar) = (s.rows k).map (·.scalar)) ∧
    (∀ k row, s.rows k = some row → row.authority = .str userOverride →
      (s'.rows k).map (·.scalar) = some row.scalar ∨ (isLockEvent ev.eventType = true ∧ k.2 = lockPredicate) ∨
        isOverride ev.eventType = true ∨ ev.authority = some userOverride) ∧
    (∀ k row, s.rows k = some row → ∃ row', s'.rows k = some row' ∧ row.seq ≤ row'.seq) := by
  obtain ⟨ho', n, hn, hlt⟩ := ho.append_one
  have hb : RowsUpTo n s := replay_rowsUpTo ho' hs n fun e he m hm => Nat.le_of_lt (hlt e he m hm)
  -- only a marker changes a column at a lock event
  have hlock : isLockEvent ev.eventType = true → ∀ k, k.2 ≠ lockPredicate →
      (s'.rows k).map (·.scalar) = (s.rows k).map (·.scalar) := by
    intro hl k hk
    rcases reduce_lock hl h with ⟨-, rfl⟩ | ⟨ref, -, rfl⟩
    · rfl
    · rw [reduceLock_rows _ _ _ _ (fun he => hk (by rw [he])), pinRows_scalar]
  refine ⟨fun k hlocked hk => ?_, fun k row hr hu => ?_, (reduce_seq hn hb h).2⟩
  · cases hl : isLockEvent ev.eventType with
    | true => exact hlock hl k hk
    | false =>
      rcases (reduce_change hl h).2 k with he | ⟨-, hfree, -⟩
      · rw [he]
      · rw [replay_locks hs, hlocked] at hfree; cases hfree
  · cases hl : isLockEvent ev.eventType with
    | true =>
      by_cases hk : k.2 = lockPredicate
      · exact .inr (.inl ⟨rfl, hk⟩)
      · exact .inl (by rw [hlock hl k hk, hr]; rfl)
    | false =>
      rcases (reduce_change hl h).2 k with he | ⟨-, -, row', hr', hf⟩
      · exact .inl (by rw [he, hr]; rfl)
      · rw [CurrentReducedState.rowOrSeed, hr] at hf
        rcases hf.override hu with he | ho
        · exact .inl (by rw [hr', he]; rfl)
        · exact .inr (.inr ho)

/-- An assertion about an entity locked after an earlier one. -/
theorem replay_step_precedence_locked :
    let about (object : String) (seq : Nat) : SemanticEvent :=
      { eventType := .SemanticAsserted
        payload := [("predicate_code", .str "SPEAKS"), ("subject_ref", .str "e"), ("object_ref", .str object)]
        seq := some seq }
    let lock : SemanticEvent := { eventType := .Locked, payload := [("entity_ref", .str "e")], seq := some 2 }
    ∃ s s', replay [about "a" 1, lock] = .ok s ∧ reduce s (about "b" 3) = .ok s' ∧
      (s'.rows ("e", "SPEAKS")).map (·.scalar) = (s.rows ("e", "SPEAKS")).map (·.scalar) := by
  intro about lock
  refine ⟨_, _, rfl, rfl, ?_⟩
  exact (replay_step_precedence [about "a" 1, lock] (about "b" 3) _ _ ⟨[1, 2, 3], rfl, by decide⟩ rfl rfl).1
    ("e", "SPEAKS") rfl (by decide)

end Umd.Reducer
