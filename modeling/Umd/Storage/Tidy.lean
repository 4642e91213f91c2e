import Umd.Storage.Appended
import Umd.Storage.Tier0
/-!
# `current_state` under any appends

Whatever is appended, each row of `current_state` is stored under its own key
and at a seq that has been given out. This holds also of the batches that
`LocksFollow` leaves out.
-/

namespace Umd.Ledger

open Umd.Lib Umd.Events Umd.Reducer Umd.Projections

/-- The rows of a state are under their keys and not ahead of `n`. -/
structure TidyRows (n : Nat) (s : CurrentReducedState) : Prop where
  keyed : ∀ k row, s.rows k = some row → row.key = k
  upTo : RowsUpTo n s

theorem TidyRows.rowOrSeed {n : Nat} {s : CurrentReducedState} (h : TidyRows n s) (k : Key) : (s.rowOrSeed k).key = k := by
  unfold CurrentReducedState.rowOrSeed
  cases hr : s.rows k with
  | none => rfl
  | some row => exact h.keyed k row hr

theorem pinRows_key {rows : Key → Option CurrentStateRow} (h : ∀ k row, rows k = some row → row.key = k) (ref : String)
    (locked : Bool) {k : Key} {row : CurrentStateRow} (hr : pinRows rows ref locked k = some row) : row.key = k := by
  obtain ⟨row₀, h₀, rfl⟩ := Option.map_eq_some_iff.1 hr
  rw [← h k row₀ h₀]
  split <;> rfl

/-- One event, at a seq no row is ahead of. -/
theorem TidyRows.reduce {n m : Nat} {s s' : CurrentReducedState} {ev : SemanticEvent} (h : TidyRows n s) (hn : ev.seq = some m)
    (hle : n ≤ m) (hr : Reducer.reduce s ev = .ok s') : TidyRows m s' := by
  refine ⟨fun k row hk => ?_, (reduce_seq hn (h.upTo.mono hle) hr).1⟩
  cases hl : isLockEvent ev.eventType with
  | false =>
    rcases (reduce_change hl hr).2 k with he | ⟨-, -, row', hr', hf⟩
    · exact h.keyed k row (he ▸ hk)
    · rw [hr'] at hk
      cases hk
      rw [hf.key, h.rowOrSeed]
  | true =>
    rcases reduce_lock hl hr with ⟨-, rfl⟩ | ⟨ref, -, rfl⟩
    · exact h.keyed k row hk
    · by_cases hmark : k = (ref, lockPredicate)
      · subst hmark
        rw [reduceLock_marker] at hk
        cases hk
        change CurrentStateRow.key (Option.getD _ _) = _
        cases hp : pinRows s.rows ref (ev.eventType = .Locked) (ref, lockPredicate) with
        | none => rfl
        | some row => exact pinRows_key h.keyed ref _ hp
      · rw [reduceLock_rows _ _ _ _ hmark] at hk
        exact pinRows_key h.keyed ref _ hk

theorem TidyRows.mono {n m : Nat} {s : CurrentReducedState} (h : TidyRows n s) (hle : n ≤ m) : TidyRows m s :=
  ⟨h.keyed, h.upTo.mono hle⟩

theorem TidyRows.reduceAll {evs : List SemanticEvent} {top : Nat} : ∀ {n : Nat} {seqs : List Nat} {s s' : CurrentReducedState},
    evs.map (·.seq) = seqs.map some → (n :: seqs).Pairwise (· ≤ ·) → (∀ m ∈ n :: seqs, m ≤ top) → TidyRows n s →
    Reducer.reduceAll s evs = .ok s' → TidyRows top s' := by
  induction evs with
  | nil =>
    intro n seqs s s' _ _ ht h hr
    cases hr
    exact h.mono (ht n (by simp))
  | cons ev evs ih =>
    intro n seqs s s' hs ho ht h hr
    cases seqs with
    | nil => cases hs
    | cons m seqs =>
      simp only [List.map_cons, List.cons.injEq] at hs
      simp only [Reducer.reduceAll, bind, Except.bind] at hr
      cases h1 : Reducer.reduce s ev with
      | error e => simp [h1] at hr
      | ok s₁ =>
        simp only [h1] at hr
        rw [List.pairwise_cons] at ho
        exact ih hs.2 ho.2 (fun m hm => ht m (List.mem_cons_of_mem _ hm)) (h.reduce hs.1 (ho.1 m (by simp)) h1) hr

/-- The log and `current_state` as any appends leave them. -/
structure Tidy (db : Db) : Prop where
  stored : Stored db
  keyed : db.state.Keyed
  below : db.state.Below db.nextSeq

theorem Tidy.empty : Tidy {} := ⟨.empty, nofun, nofun⟩


/-- The rows a batch loads are tidy. -/
theorem load_tidy {t : Table} (hk : t.Keyed) {n : Nat} (hb : t.Below (n + 1)) (evs : List SemanticEvent) :
    TidyRows n (loadAffectedState t evs) := by
  constructor <;>
  · intro k row hr
    simp only [loadAffectedState] at hr
    split at hr
    · obtain ⟨r, htr, rfl⟩ := Option.map_eq_some_iff.1 hr
      first
        | exact hk k r htr
        | exact Nat.le_of_lt_succ (hb k r htr)
    · cases hr

/-- A batch keeps the table tidy. -/
theorem applyTier0_tidy {t t' : Table} {evs : List SemanticEvent} {n count : Nat} (hk : t.Keyed) (hb : t.Below n) (hn : 0 < n)
    (h : applyTier0 t evs (List.range' n count) = .ok t') : t'.Keyed ∧ t'.Below (n + count) := by
  rw [applyTier0_eq] at h
  cases hf : foldBatch t evs (List.range' n count) with
  | error e => rw [hf] at h; cases h
  | ok s =>
    rw [hf] at h
    cases h
    obtain ⟨sub, hsub, hsl⟩ := semanticWithSeqs_seqs evs (List.range' n count)
    have hmem : ∀ m ∈ sub, n ≤ m ∧ m < n + count := fun m hm => List.mem_range'_1.1 (hsl.mem hm)
    have hs : TidyRows (n + count - 1) s := by
      refine TidyRows.reduceAll (n := n - 1) hsub ?_ ?_ (load_tidy hk (by rwa [Nat.sub_add_cancel hn]) _) hf
      · rw [List.pairwise_cons]
        refine ⟨fun m hm => ?_, (List.Pairwise.sublist hsl List.pairwise_lt_range').imp Nat.le_of_lt⟩
        have := (hmem m hm).1
        omega
      · intro m hm
        rcases List.mem_cons.1 hm with rfl | hm
        · omega
        · have := (hmem m hm).2
          omega
    constructor <;>
    · intro k r hr
      simp only [persistDelta] at hr
      split at hr
      · first
          | exact hk k r hr
          | exact Nat.lt_of_lt_of_le (hb k r hr) (Nat.le_add_right ..)
      · rename_i row hrow
        split at hr
        · first
            | exact hk k r hr
            | exact Nat.lt_of_lt_of_le (hb k r hr) (Nat.le_add_right ..)
        · cases hr
          first
            | exact hs.keyed k row hrow
            | have := hs.upTo k row hrow
              change row.seq < n + count
              omega

theorem Tidy.append {db : Db} (h : Tidy db) (call : Call) : Tidy (append db call).1 := by
  suffices hrows : (Ledger.append db call).1.state.Keyed ∧ (Ledger.append db call).1.state.Below (Ledger.append db call).1.nextSeq from
    ⟨h.stored.append call, hrows.1, hrows.2⟩
  unfold Ledger.append
  split
  · exact ⟨h.keyed, h.below⟩
  · split
    · exact ⟨h.keyed, h.below⟩
    · split
      · exact ⟨h.keyed, h.below⟩
      · split
        · exact ⟨h.keyed, h.below⟩
        · rename_i prepared hp
          obtain ⟨new, -, hst, -, hnext, -⟩ := insertAll_rows call (call.events.zip prepared) db
          split
          · rename_i db' existing hd
            rw [hd] at hst hnext
            exact ⟨hst ▸ h.keyed, hst ▸ h.below.mono hnext⟩
          · rename_i db' seqs hd
            rw [hd] at hst hnext
            obtain ⟨hseqs, hdb⟩ := insertAll_ok hd
            split
            · exact ⟨h.keyed, h.below.mono hnext⟩
            · rename_i state htier
              rw [hst, hseqs] at htier
              have := applyTier0_tidy h.keyed h.below h.stored.start htier
              rw [hdb]
              exact ⟨this.1, this.2⟩

theorem tidy_run {db : Db} (h : Run appendStep Any {} db) : Tidy db :=
  h.inv Tidy .empty fun _ call _ hi _ hs => by cases hs; exact hi.append call

end Umd.Ledger
