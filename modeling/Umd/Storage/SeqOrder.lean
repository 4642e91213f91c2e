import Umd.Lib.Traces
import Umd.Storage.Tier0
/-!
# Folding out of seq order

An event depends on the rows it reads and changes the rows it writes, so two
events commute unless one writes what the other reads. A log whose dependent
events are in seq order is rebuilt as it was committed
(`rebuild_commit_order`), and the stored table may lack the unlocked markers
that such a fold has without any later event telling the difference
(`reduceAll_near`).
-/

namespace Umd.Ledger

open Umd.Lib Umd.Events Umd.Reducer Umd.Projections

/-! ## Dependence -/

theorem rowOrSeed_congr {t u : Table} {k : Key} (h : t k = u k) : t.rowOrSeed k = u.rowOrSeed k := by
  rw [Table.rowOrSeed, h, Table.rowOrSeed]

theorem isLocked_congr {t u : Table} {ref : String} (h : t (ref, lockPredicate) = u (ref, lockPredicate)) :
    t.isLocked ref = u.isLocked ref := by
  rw [Table.isLocked, h, Table.isLocked]

theorem upd_congr {t u : Table} {R : Key → Prop} (h : ∀ k, R k → t k = u k) {k₀ : Key} {r r' : Option ScalarRow} (hr : r = r') :
    ∀ k, R k → upd t k₀ r k = upd u k₀ r' k := by
  intro k hk
  subst hr
  by_cases he : k = k₀
  · subst he; rw [upd_self, upd_self]
  · rw [upd_ne _ _ he, upd_ne _ _ he, h k hk]

/-- An event folds alike on tables that agree on what it reads. -/
theorem reduce_agree {t u t' : Table} {ev : SemanticEvent} (h : ∀ k, k ∈ reads ev → t k = u k) (ht : t.reduce ev = some t') :
    ∃ u', u.reduce ev = some u' ∧ ∀ k, k ∈ reads ev → t' k = u' k := by
  cases hl : isLockEvent ev.eventType with
  | true =>
    simp only [Table.reduce, hl, if_true] at ht ⊢
    cases hr : entityRefOf ev with
    | none => rw [hr] at ht; cases ht; exact ⟨u, rfl, h⟩
    | some ref =>
      rw [hr] at ht
      cases ht
      have hm : (ref, lockPredicate) ∈ reads ev := mem_reads_of_writes (by rw [writes_lock hl hr]; simp)
      exact ⟨_, rfl, upd_congr h (by rw [rowOrSeed_congr (h _ hm)])⟩
  | false =>
    simp only [Table.reduce, hl, Bool.false_eq_true, if_false] at ht ⊢
    cases hct : changeTarget ev with
    | none => rw [hct] at ht; cases ht; exact ⟨u, rfl, h⟩
    | some target =>
      rw [hct] at ht
      have hwr : ∀ k, k = target ∨ identityEventTarget ev = some k → k ∈ writes ev := by
        intro k hk
        rw [writes_change hl hct, List.mem_cons, Option.mem_toList]
        exact hk
      have hlock : ∀ k, k ∈ writes ev → t.isLocked k.1 = u.isLocked k.1 := fun k hk =>
        isLocked_congr (h _ (marker_mem_reads hk))
      have hrow : ∀ k, k ∈ writes ev → t.rowOrSeed k = u.rowOrSeed k := fun k hk =>
        rowOrSeed_congr (h _ (mem_reads_of_writes hk))
      have hid : t.identityKey ev = u.identityKey ev := by
        unfold Table.identityKey
        cases hi : identityEventTarget ev with
        | none => rfl
        | some k => rw [Option.filter_some, Option.filter_some, hlock k (hwr k (.inr hi))]
      simp only [Table.reduceChange, hlock target (hwr target (.inl rfl)), hid, hrow target (hwr target (.inl rfl))] at ht ⊢
      cases hfree : u.isLocked target.1 with
      | true => simp only [hfree, if_true, Option.some.injEq] at ht ⊢; subst ht; exact ⟨u, rfl, h⟩
      | false =>
        simp only [hfree, Bool.false_eq_true, if_false] at ht ⊢
        cases hik : u.identityKey ev with
        | none => simp only [hik, Option.some.injEq] at ht ⊢; subst ht; exact ⟨_, rfl, upd_congr h rfl⟩
        | some k =>
          have hk := hwr k (.inr (Option.filter_eq_some_iff.1 hik).1)
          simp only [hik, hrow k hk, Option.map_eq_some_iff] at ht ⊢
          obtain ⟨r, hr, rfl⟩ := ht
          exact ⟨_, ⟨r, hr, rfl⟩, upd_congr (upd_congr h rfl) rfl⟩

/-- One event on the stored rows reads and writes the rows it names. -/
theorem reduce_local (ev : SemanticEvent) :
    Local (· ∈ reads ev) (· ∈ writes ev) fun t : Table => t.reduce ev where
  sub _ := mem_reads_of_writes
  frame h _ hk := Table.reduce_frame h hk
  agree h ht := reduce_agree h ht

/-- The fold of a row of the log; a row that is no semantic event folds to nothing. -/
def foldRow (t : Table) (r : EventRow) : Option Table := if (upcast r).isSemantic then t.reduce (upcast r) else some t

/-- One of the rows writes what the other reads. -/
def Depend (r r' : EventRow) : Prop :=
  (upcast r).isSemantic = true ∧ (upcast r').isSemantic = true ∧
    ∃ k, (k ∈ writes (upcast r) ∧ k ∈ reads (upcast r')) ∨ (k ∈ writes (upcast r') ∧ k ∈ reads (upcast r))

/-- Dependent rows have their seqs in order. -/
def DependInOrder (rows : List EventRow) : Prop := rows.Pairwise fun r r' => Depend r r' → r.seq < r'.seq

theorem swaps_of_not_depend {r r' : EventRow} (h : ¬ Depend r r') : Swaps foldRow r r' := by
  intro t
  unfold foldRow
  cases hr : (upcast r).isSemantic with
  | false => simp
  | true =>
    cases hr' : (upcast r').isSemantic with
    | false => simp
    | true =>
      refine (reduce_local (upcast r)).comm (reduce_local (upcast r')) (fun k hk hk' => ?_) (fun k hk hk' => ?_) t
      · exact h ⟨hr, hr', k, .inl ⟨hk, hk'⟩⟩
      · exact h ⟨hr, hr', k, .inr ⟨hk, hk'⟩⟩

theorem reduceAll_logOf (rows : List EventRow) (t : Table) : t.reduceAll (logOf rows) = runAll foldRow t rows := by
  induction rows generalizing t with
  | nil => rfl
  | cons r rows ih =>
    simp only [logOf, List.map_cons, List.filter_cons, runAll, foldRow]
    split
    · exact congrArg _ (funext fun t' => ih t')
    · exact ih t

/-- A log whose dependent rows are in seq order is rebuilt as it was committed. -/
theorem rebuild_commit_order {rows : List EventRow} (ho : DependInOrder rows) (hp : ∀ r ∈ rows, 0 < r.seq)
    (hw : ∀ ev ∈ logOf rows, WellTargeted ev) {t : Table} (ht : Table.reduceAll (fun _ => none) (logOf rows) = some t) :
    rebuild rows = .ok (store (fun _ => none) t) := by
  have hload : loadEvents rows 0 = rows.insertionSort fun r r' => r.seq ≤ r'.seq := by
    rw [loadEvents, List.filter_eq_self.2 (by simpa using hp)]
  refine rebuild_loaded (fun ev he => hw ev ?_) ?_
  · rw [hload] at he
    obtain ⟨hm, hs⟩ := List.mem_filter.1 he
    obtain ⟨r, hr, rfl⟩ := List.mem_map.1 hm
    exact List.mem_filter.2 ⟨List.mem_map_of_mem ((List.mem_insertionSort _).1 hr), hs⟩
  · rw [hload, reduceAll_logOf, runAll_sorted, ← reduceAll_logOf, ht]
    exact ho.imp fun h hlt => swaps_of_not_depend fun hd => absurd (h hd) (by omega)

/-! ## Unlocked markers that are not stored -/

/-- The marker lock events leave on a row that was not there. -/
def bareMarker (ref : String) (state : Json) (seq : Nat) : ScalarRow :=
  { (CurrentStateRow.seed (ref, lockPredicate)).scalar with state := state, seq := seq }

/-- The marker of `ref` is missing in `t`, and `v` has one that says `UNLOCKED` since `m`. -/
def Dropped (t v : Table) (ref : String) (m : Nat) : Prop :=
  t (ref, lockPredicate) = none ∧ v (ref, lockPredicate) = some (bareMarker ref (.str "UNLOCKED") m)

/-- The tables are the same but for dropped markers. -/
def Near (t v : Table) : Prop := ∀ k, t k = v k ∨ ∃ ref m, k = (ref, lockPredicate) ∧ Dropped t v ref m

theorem Near.refl (t : Table) : Near t t := fun _ => .inl rfl

theorem Near.some {t v : Table} (h : Near t v) {k : Key} {r : ScalarRow} (hr : t k = some r) : v k = some r := by
  rcases h k with he | ⟨ref, m, rfl, hn, -⟩
  · rw [← he, hr]
  · rw [hn] at hr; cases hr

theorem Near.isLocked {t v : Table} (h : Near t v) (ref : String) : t.isLocked ref = v.isLocked ref := by
  rcases h (ref, lockPredicate) with he | ⟨ref', m, hk, hn, hm⟩
  · exact isLocked_congr he
  · cases hk
    rw [Table.isLocked, hn, Table.isLocked, hm]
    rfl

/-- A lock event does not see whether the marker was dropped. -/
theorem marker_bare {ref : String} {ev : SemanticEvent} {m n : Nat} (hn : ev.seq = some n) (hm : m < n) (locked : Bool) :
    Table.marker (bareMarker ref (.str "UNLOCKED") m) ev locked =
      Table.marker (CurrentStateRow.seed (ref, lockPredicate)).scalar ev locked := by
  have h0 : ¬ n = 0 := by omega
  simp only [Table.marker, lockMarker, CurrentStateRow.scalar, hn, Option.getD_some, if_neg h0]
  rfl

/-- Nor does a change of the marker row. -/
theorem change_bare {ref : String} {ev : SemanticEvent} {m n : Nat} (hw : WellTargeted ev) (hn : ev.seq = some n) (hm : m < n)
    (ht : eventTarget ev = some (ref, lockPredicate)) :
    Table.change (bareMarker ref (.str "UNLOCKED") m) ev =
      Table.change (CurrentStateRow.seed (ref, lockPredicate)).scalar ev := by
  have hcases := hw.markerChange ref ht
  have hce : ev.eventType ∈ changeEvents := by
    simp only [isOverride, Bool.or_eq_true, decide_eq_true_eq] at hcases
    rcases hcases with (h | h) | h | h <;> rw [h] <;> decide
  have hout : ∀ r : ScalarRow, r.authority = .null → r.seq < n → outranked (.ofScalar r) ev n = false := by
    intro r ha hs
    have hs' : (CurrentStateRow.ofScalar r).seq < n := hs
    have ha' : (CurrentStateRow.ofScalar r).authority = .null := ha
    simp only [outranked, ha', Json.isStr, Json.str?, Bool.or_eq_false_iff, decide_eq_false_iff_not, beq_eq_false_iff_ne]
    exact ⟨⟨rfl, by omega⟩, by omega⟩
  have hb := hout (bareMarker ref (.str "UNLOCKED") m) rfl hm
  have hs := hout (CurrentStateRow.seed (ref, lockPredicate)).scalar rfl (Nat.zero_lt_of_lt hm)
  have happ : ∀ r : ScalarRow, (r.entityRef, r.predicate) = (ref, lockPredicate) →
      Table.change r ev = (applyChange (.ofScalar r) ev).scalar := by
    intro r hk
    have hk' : (CurrentStateRow.ofScalar r).key = (ref, lockPredicate) := hk
    rw [Table.change, reduceCurrentState_applies hce (by rw [ht, hk']) rfl]
  have hsb : seqOn (CurrentStateRow.ofScalar (bareMarker ref (.str "UNLOCKED") m)) ev = n := by rw [seqOn, hn]; rfl
  have hss : seqOn (CurrentStateRow.ofScalar (CurrentStateRow.seed (ref, lockPredicate)).scalar) ev = n := by
    rw [seqOn, hn]; rfl
  rw [happ (bareMarker ref (.str "UNLOCKED") m) rfl, happ (CurrentStateRow.seed (ref, lockPredicate)).scalar rfl]
  unfold applyChange
  rw [hsb, hss, hb, hs]
  rcases hcases with h | h | h
  · rw [if_pos h, if_pos h]; rfl
  · have : isOverride ev.eventType = false := by rw [h]; rfl
    rw [this, h]; rfl
  · have : isOverride ev.eventType = false := by rw [h]; rfl
    rw [this, h]; rfl

/-- What a fold of two tables leaves: a row is the same in both, or it was touched in neither. -/
def Alike (t v t' v' : Table) : Prop := ∀ k, t' k = v' k ∨ (t' k = t k ∧ v' k = v k)

theorem Alike.near {t v t' v' : Table} (h : Alike t v t' v') (hn : Near t v) : Near t' v' := by
  intro k
  rcases h k with he | ⟨ht, hv⟩
  · exact .inl he
  · rcases hn k with he | ⟨ref, m, rfl, hd, hm⟩
    · exact .inl (by rw [ht, hv, he])
    · exact .inr ⟨ref, m, rfl, ht.trans hd, hv.trans hm⟩

theorem Alike.upd {t v t' v' : Table} (h : Alike t v t' v') (k₀ : Key) (r : Option ScalarRow) :
    Alike t v (upd t' k₀ r) (upd v' k₀ r) := by
  intro k
  by_cases he : k = k₀
  · subst he; rw [upd_self, upd_self]; exact .inl rfl
  · rw [upd_ne _ _ he, upd_ne _ _ he]; exact h k

/-- One event folds alike on both tables, if its seq is above those of the
dropped markers it writes. -/
theorem reduce_near {t v t' : Table} {ev : SemanticEvent} {n : Nat} (hn : Near t v) (hw : WellTargeted ev)
    (hs : ev.seq = some n) (hm : ∀ ref m, Dropped t v ref m → (ref, lockPredicate) ∈ writes ev → m < n)
    (h : t.reduce ev = some t') : ∃ v', v.reduce ev = some v' ∧ Alike t v t' v' := by
  have hrefl : Alike t v t v := fun _ => .inr ⟨rfl, rfl⟩
  -- the row of a dropped marker is a seed on one side and bare on the other
  have hrow : ∀ k ∈ writes ev, t.rowOrSeed k = v.rowOrSeed k ∨
      ∃ ref m, k = (ref, lockPredicate) ∧ m < n ∧ t.rowOrSeed k = (CurrentStateRow.seed k).scalar ∧
        v.rowOrSeed k = bareMarker ref (.str "UNLOCKED") m := by
    intro k hk
    rcases hn k with he | ⟨ref, m, rfl, hd, hv⟩
    · exact .inl (rowOrSeed_congr he)
    · exact .inr ⟨ref, m, rfl, hm ref m ⟨hd, hv⟩ hk, by rw [Table.rowOrSeed, hd]; rfl, by rw [Table.rowOrSeed, hv]; rfl⟩
  cases hl : isLockEvent ev.eventType with
  | true =>
    simp only [Table.reduce, hl, if_true] at h ⊢
    cases hr : entityRefOf ev with
    | none => rw [hr] at h; cases h; exact ⟨v, rfl, hrefl⟩
    | some ref =>
      rw [hr] at h
      cases h
      have hk : (ref, lockPredicate) ∈ writes ev := by rw [writes_lock hl hr]; simp
      have hmark : Table.marker (t.rowOrSeed (ref, lockPredicate)) ev (ev.eventType = .Locked) =
          Table.marker (v.rowOrSeed (ref, lockPredicate)) ev (ev.eventType = .Locked) := by
        rcases hrow _ hk with he | ⟨ref', m, hkr, hlt, ht, hv⟩
        · rw [he]
        · cases hkr; rw [ht, hv, marker_bare hs hlt]
      refine ⟨_, rfl, ?_⟩
      simp only [hmark]
      exact hrefl.upd _ _
  | false =>
    simp only [Table.reduce, hl, Bool.false_eq_true, if_false] at h ⊢
    cases hct : changeTarget ev with
    | none => rw [hct] at h; cases h; exact ⟨v, rfl, hrefl⟩
    | some target =>
      rw [hct] at h
      have htw : target ∈ writes ev := by rw [writes_change hl hct]; simp
      have hchange : Table.change (t.rowOrSeed target) ev = Table.change (v.rowOrSeed target) ev := by
        rcases hrow target htw with he | ⟨ref, m, rfl, hlt, ht, hv⟩
        · rw [he]
        · rw [ht, hv, change_bare hw hs hlt (changeTarget_eq hct).1]
      have hid : t.identityKey ev = v.identityKey ev := by
        unfold Table.identityKey
        simp only [hn.isLocked]
      simp only [Table.reduceChange, hn.isLocked, hid, hchange] at h ⊢
      cases hfree : v.isLocked target.1 with
      | true => simp only [hfree, if_true, Option.some.injEq] at h ⊢; subst h; exact ⟨v, rfl, hrefl⟩
      | false =>
        simp only [hfree, Bool.false_eq_true, if_false] at h ⊢
        cases hik : v.identityKey ev with
        | none => simp only [hik, Option.some.injEq] at h ⊢; subst h; exact ⟨_, rfl, hrefl.upd _ _⟩
        | some k =>
          have hidt := (Option.filter_eq_some_iff.1 hik).1
          have hk : k ∈ writes ev := by rw [writes_change hl hct, hidt]; simp
          have hsame : t.rowOrSeed k = v.rowOrSeed k := by
            rcases hrow k hk with he | ⟨ref, m, rfl, -⟩
            · exact he
            · exact absurd rfl (identity_ne_marker hidt ref)
          simp only [hik, hsame, Option.map_eq_some_iff] at h ⊢
          obtain ⟨r, hr, rfl⟩ := h
          exact ⟨_, ⟨r, hr, rfl⟩, (hrefl.upd _ _).upd _ _⟩

/-- A list of events folds alike on both tables. -/
theorem reduceAll_near {evs : List SemanticEvent} (hw : ∀ ev ∈ evs, WellTargeted ev) :
    ∀ {t v t' : Table}, Near t v →
      (∀ ev ∈ evs, ∃ n, ev.seq = some n ∧ ∀ ref m, Dropped t v ref m → (ref, lockPredicate) ∈ writes ev → m < n) →
      t.reduceAll evs = some t' → ∃ v', v.reduceAll evs = some v' ∧ Alike t v t' v' := by
  induction evs with
  | nil => intro t v t' _ _ h; cases h; exact ⟨v, rfl, fun _ => .inr ⟨rfl, rfl⟩⟩
  | cons ev evs ih =>
    intro t v t' hn hseq h
    obtain ⟨t₁, h₁, h₂⟩ := Option.bind_eq_some_iff.1 h
    obtain ⟨n, hs, hm⟩ := hseq ev (by simp)
    obtain ⟨v₁, hv₁, ha⟩ := reduce_near hn (hw ev (by simp)) hs hm h₁
    -- a marker dropped after the event was dropped before it
    have hd : ∀ ref m, Dropped t₁ v₁ ref m → Dropped t v ref m := by
      rintro ref m ⟨hd, hv⟩
      rcases ha (ref, lockPredicate) with he | ⟨ht, hv'⟩
      · rw [hd, hv] at he; cases he
      · exact ⟨ht.symm.trans hd, hv'.symm.trans hv⟩
    obtain ⟨v', hv', ha'⟩ := ih (fun e he => hw e (by simp [he])) (ha.near hn) (fun e he => by
      obtain ⟨n, hs, hm⟩ := hseq e (by simp [he])
      exact ⟨n, hs, fun ref m h => hm ref m (hd ref m h)⟩) h₂
    refine ⟨v', Option.bind_eq_some_iff.2 ⟨v₁, hv₁, hv'⟩, fun k => ?_⟩
    rcases ha' k with he | ⟨ht, hv⟩
    · exact .inl he
    · rcases ha k with he | ⟨ht₁, hv₁⟩
      · exact .inl (by rw [ht, hv, he])
      · exact .inr ⟨ht.trans ht₁, hv.trans hv₁⟩

/-- A marker that was not there and that only lock events write is bare. -/
theorem reduceAll_bare {evs : List SemanticEvent} {ref : String}
    (hno : ∀ ev ∈ evs, isLockEvent ev.eventType = false → changeTarget ev ≠ some (ref, lockPredicate)) {t t' : Table}
    (ht : t (ref, lockPredicate) = none) (h : t.reduceAll evs = some t') :
    t' (ref, lockPredicate) = none ∨ ∃ state m, t' (ref, lockPredicate) = some (bareMarker ref state m) := by
  refine Table.reduceAll_inv (I := fun t => t (ref, lockPredicate) = none ∨
    ∃ state m, t (ref, lockPredicate) = some (bareMarker ref state m)) (fun ev he t t' hi h => ?_) (.inl ht) h
  by_cases hk : (ref, lockPredicate) ∈ writes ev
  · cases hl : isLockEvent ev.eventType with
    | true =>
      cases hr : entityRefOf ev with
      | none => simp [writes, hl, hr] at hk
      | some ref' =>
        rw [writes_lock hl hr, List.mem_singleton] at hk
        cases hk
        simp only [Table.reduce, hl, if_true, hr, Option.some.injEq] at h
        subst h
        refine .inr ⟨if ev.eventType = .Locked then stateLocked else stateUnlocked,
          if ev.seq.getD 0 = 0 then (t.rowOrSeed (ref, lockPredicate)).seq else ev.seq.getD 0, ?_⟩
        rw [upd_self]
        rcases hi with hi | ⟨state, m, hi⟩
        · rw [Table.rowOrSeed, hi]
          simp only [Table.marker, lockMarker, CurrentStateRow.scalar, decide_eq_true_eq]
          rfl
        · rw [Table.rowOrSeed, hi]
          simp only [Table.marker, lockMarker, CurrentStateRow.scalar, decide_eq_true_eq]
          rfl
    | false =>
      unfold writes at hk
      simp only [hl, Bool.false_eq_true, if_false] at hk
      cases hct : changeTarget ev with
      | none => simp [hct] at hk
      | some target =>
        simp only [hct] at hk
        rcases List.mem_cons.1 hk with rfl | hk
        · exact absurd hct (hno ev he hl)
        · exact absurd rfl (identity_ne_marker (Option.mem_toList.1 hk) ref)
  · rw [Table.reduce_frame h hk]
    exact hi

/-- The stored fold of a batch stays near the fold of the log: a marker it
leaves unlocked was not there, and only lock events wrote it. -/
theorem store_near {evs : List SemanticEvent} (hw : ∀ ev ∈ evs, WellTargeted ev) {t v t' v' : Table} (hk : t.Keyed)
    (hn : Near t v) (ha : Alike t v t' v') (h : t.reduceAll evs = some t') (hu : ∀ ref, t.isUnlocked ref = false)
    (hends : ∀ ref, endsUnlocked evs ref = true → t (ref, lockPredicate) = none ∧
      ∀ ev ∈ evs, isLockEvent ev.eventType = false → changeTarget ev ≠ some (ref, lockPredicate)) :
    Near (store t t') v' := by
  intro k
  cases ht' : t' k with
  | none =>
    have hstore : store t t' k = t k := by unfold store; rw [ht']
    have htk : t k = none := by
      cases htk : t k with
      | none => rfl
      | some r => have := Table.reduceAll_some h (k := k) (by rw [htk]; rfl); rw [ht'] at this; cases this
    rw [hstore, htk, ← ht']
    rcases ha.near hn k with he | ⟨ref, m, rfl, hd⟩
    · exact .inl he
    · refine .inr ⟨ref, m, rfl, hstore.trans htk, hd.2⟩
  | some r =>
    by_cases hm : (k.2 = lockPredicate && r.state.isStr "UNLOCKED") = true
    · have hstore : store t t' k = t k := by unfold store; rw [ht']; exact if_pos hm
      obtain ⟨ref, p⟩ := k
      simp only [Bool.and_eq_true, decide_eq_true_eq] at hm
      obtain ⟨rfl, hstate⟩ := hm
      have hun : t'.isUnlocked ref = true := by rw [Table.isUnlocked, ht']; exact hstate
      have hend : endsUnlocked evs ref = true :=
        reduceAll_endsUnlocked hw ref false hk (fun hc => by rw [hu ref] at hc; cases hc) h hun
      obtain ⟨hnone, hno⟩ := hends ref hend
      rw [Json.isStr_iff] at hstate
      have hv : v' (ref, lockPredicate) = some r := by
        rcases ha (ref, lockPredicate) with he | ⟨he, -⟩
        · rw [← he, ht']
        · rw [ht', hnone] at he; cases he
      rcases reduceAll_bare hno hnone h with he | ⟨state, m, he⟩
      · rw [ht'] at he; cases he
      · rw [ht'] at he
        cases he
        have hs : state = .str "UNLOCKED" := hstate
        subst hs
        exact .inr ⟨ref, m, rfl, hstore.trans hnone, hv⟩
    · have hstore : store t t' k = some r := by unfold store; rw [ht']; exact if_neg hm
      refine .inl ?_
      rw [hstore]
      rcases ha k with he | ⟨he, hv⟩
      · rw [← he, ht']
      · rw [hv, hn.some (he.symm.trans ht')]

/-- Near a fold, the stored table is what a rebuild stores of it. -/
theorem Near.store_eq {t v : Table} (h : Near t v) (hu : ∀ ref, t.isUnlocked ref = false) : store (fun _ => none) v = t := by
  funext k
  unfold store
  rcases h k with he | ⟨ref, m, rfl, hd, hv⟩
  · rw [← he]
    cases hk : t k with
    | none => rfl
    | some r =>
      by_cases hm : k.2 = lockPredicate
      · have := hu k.1
        rw [Table.isUnlocked, ← hm] at this
        simp only [hk, Option.any_some] at this
        simp [this]
      · simp [hm]
  · rw [hv, hd]
    rfl

/-! ## Where a row has its seq from -/

/-- The seq of a row is that of an event that wrote it, if there was one. -/
theorem reduceAll_origin {evs : List SemanticEvent} (hs : ∀ ev ∈ evs, ∃ n, ev.seq = some n) {v : Table}
    (h : Table.reduceAll (fun _ => none) evs = some v) {k : Key} {r : ScalarRow} (hr : v k = some r) :
    r.seq = 0 ∨ ∃ ev ∈ evs, k ∈ writes ev ∧ ev.seq = some r.seq := by
  suffices hI : ∀ k r, v k = some r → r.seq = 0 ∨ ∃ ev ∈ evs, k ∈ writes ev ∧ ev.seq = some r.seq from hI k r hr
  refine Table.reduceAll_inv (I := fun v => ∀ k r, v k = some r → r.seq = 0 ∨ ∃ ev ∈ evs, k ∈ writes ev ∧ ev.seq = some r.seq)
    (fun ev he v v' hi h k r hr => ?_) (fun k r hr => by cases hr) h
  rcases Table.reduce_rows h k with hk | ⟨hk, r', hr', ht⟩
  · exact hi k r (hk ▸ hr)
  · rw [hr'] at hr
    cases hr
    obtain ⟨n, hn⟩ := hs ev he
    rcases ht.seq n hn with hs | hs
    · rw [hs]
      unfold Table.rowOrSeed
      cases hv : v k with
      | none => exact .inl rfl
      | some r₀ => exact hi k r₀ hv
    · exact .inr ⟨ev, he, hk, by rw [hn, hs]⟩

/-- Events above the seq of a row never take it back. -/
theorem reduceAll_seq_le {evs : List SemanticEvent} {k : Key} {n : Nat} {t t' : Table} {r : ScalarRow} (ht : t k = some r)
    (hs : ∀ ev ∈ evs, k ∈ writes ev → ∃ m, ev.seq = some m ∧ n ≤ m) (hn : n ≤ r.seq) (h : t.reduceAll evs = some t') :
    ∃ r', t' k = some r' ∧ n ≤ r'.seq := by
  refine Table.reduceAll_inv (I := fun t => ∃ r', t k = some r' ∧ n ≤ r'.seq) (fun ev he t t' hi h => ?_) ⟨r, ht, hn⟩ h
  obtain ⟨r', hr', hle⟩ := hi
  rcases Table.reduce_rows h k with hk | ⟨hk, r₁, hr₁, htouch⟩
  · exact ⟨r', hk.trans hr', hle⟩
  · obtain ⟨m, hm, hnm⟩ := hs ev he hk
    refine ⟨r₁, hr₁, ?_⟩
    rcases htouch.seq m hm with hs | hs
    · rw [hs, Table.rowOrSeed, hr']; exact hle
    · rw [hs]; exact hnm

/-- The event may change a row a user has overridden. -/
def Overrides (ev : SemanticEvent) : Prop :=
  isLockEvent ev.eventType = true ∨ isOverride ev.eventType = true ∨ ev.authority = some userOverride

/-- A row a user has overridden stays as it is without an event that overrides it. -/
theorem reduceAll_override {evs : List SemanticEvent} {k : Key} {t t' : Table} {r : ScalarRow} (ht : t k = some r)
    (hu : r.authority = .str userOverride) (hno : ∀ ev ∈ evs, k ∈ writes ev → ¬ Overrides ev) (h : t.reduceAll evs = some t') :
    t' k = some r := by
  refine Table.reduceAll_inv (I := fun t => t k = some r) (fun ev he t t' hi h => ?_) ht h
  rcases Table.reduce_rows h k with hk | ⟨hk, r₁, hr₁, htouch⟩
  · exact hk.trans hi
  · have hnot := hno ev he hk
    simp only [Overrides, not_or] at hnot
    have hseed : t.rowOrSeed k = r := by rw [Table.rowOrSeed, hi]; rfl
    rw [hseed] at htouch
    rcases htouch.override (Bool.eq_false_iff.2 hnot.1) hu with he | ho | ha
    · rw [hr₁, he]
    · exact absurd ho hnot.2.1
    · exact absurd ha hnot.2.2

end Umd.Ledger
