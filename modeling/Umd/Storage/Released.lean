import Umd.Storage.Tier0
/-!
# Rows of released entities

An unlocked marker is a row of the fold that the inline path does not store. Where no
event writes a marker but a lock event, and none is released over a stored lock, the
stored rows are the fold without its unlocked markers (`stored_eq_rebuild`).
-/

namespace Umd.Ledger

open Umd.Lib Umd.Events Umd.Reducer Umd.Projections

/-! ## Markers that lock events alone have written -/

/-- The event is no assertion, override or invalidation of a marker. -/
def LeavesMarkers (ev : SemanticEvent) : Prop := ∀ ref, changeTarget ev ≠ some (ref, lockPredicate)

/-- A marker row is a seed with a lock state and a seq. -/
def PlainMarkers (t : Table) : Prop :=
  ∀ ref r, t (ref, lockPredicate) = some r →
    ∃ (locked : Bool) (n : Nat), r = { (CurrentStateRow.seed (ref, lockPredicate)).scalar with
      state := if locked then stateLocked else stateUnlocked, seq := n }

/-- The second table holds the first and unlocked markers. -/
def Hides (t full : Table) : Prop :=
  ∀ k, full k = t k ∨ ∃ ref, k = (ref, lockPredicate) ∧ t k = none ∧ full.isUnlocked ref = true

theorem Hides.refl (t : Table) : Hides t t := fun _ => .inl rfl

section Step

variable {t full : Table} (h : Hides t full)

include h

theorem Hides.at_row {k : Key} (hk : ∀ ref, k ≠ (ref, lockPredicate)) : full k = t k := by
  rcases h k with he | ⟨ref, he, -⟩
  · exact he
  · exact absurd he (hk ref)

theorem Hides.isLocked (ref : String) : full.isLocked ref = t.isLocked ref := by
  rcases h (ref, lockPredicate) with he | ⟨ref', he, hnone, hu⟩
  · exact (Table.marker_frame he).1
  · cases he
    have hfree : full.isLocked ref = false := by
      by_contra hc
      rw [Table.not_isUnlocked (Bool.not_eq_false _ ▸ hc)] at hu
      cases hu
    rw [hfree, Table.isLocked, hnone]
    rfl

/-- The same write on both. -/
theorem Hides.write (k : Key) (r : Option ScalarRow) : Hides (upd t k r) (upd full k r) := by
  intro k'
  by_cases hk : k' = k
  · subst hk
    exact .inl (by rw [upd_self, upd_self])
  · rcases h k' with he | ⟨ref, rfl, hnone, hu⟩
    · exact .inl (by rw [upd_ne _ _ hk, upd_ne _ _ hk, he])
    · refine .inr ⟨ref, rfl, ?_, ?_⟩
      · rw [upd_ne _ _ hk, hnone]
      · rw [Table.isUnlocked, upd_ne _ _ hk]
        exact hu

theorem Hides.rowOrSeed {k : Key} (hk : ∀ ref, k ≠ (ref, lockPredicate)) : full.rowOrSeed k = t.rowOrSeed k := by
  rw [Table.rowOrSeed, h.at_row hk, Table.rowOrSeed]

/-- A lock event writes one marker, whatever marker it finds. -/
theorem Hides.marker (hp : PlainMarkers full) {ev : SemanticEvent} {n : Nat} (hn : ev.seq = some n) (h0 : 0 < n) (ref : String)
    (locked : Bool) :
    Table.marker (full.rowOrSeed (ref, lockPredicate)) ev locked = Table.marker (t.rowOrSeed (ref, lockPredicate)) ev locked := by
  rcases h (ref, lockPredicate) with he | ⟨ref', he, hnone, -⟩
  · rw [Table.rowOrSeed, he, Table.rowOrSeed]
  · cases hf : full (ref, lockPredicate) with
    | none => rw [Table.rowOrSeed, hf, Table.rowOrSeed, hnone]
    | some r =>
      obtain ⟨locked', m, rfl⟩ := hp ref r hf
      rw [Table.rowOrSeed, hf, Table.rowOrSeed, hnone]
      simp only [Table.marker, lockMarker, hn, Option.getD_some, if_neg (Nat.ne_of_gt h0)]
      rfl

theorem Hides.reduce (hp : PlainMarkers full) {ev : SemanticEvent} {t' : Table} {n : Nat} (hn : ev.seq = some n) (h0 : 0 < n)
    (hm : LeavesMarkers ev) (ht : t.reduce ev = some t') : ∃ full', full.reduce ev = some full' ∧ Hides t' full' := by
  unfold Table.reduce at ht ⊢
  split at ht <;> rename_i hl
  · rw [if_pos hl]
    cases href : entityRefOf ev with
    | none => simp only [href] at ht ⊢; cases ht; exact ⟨full, rfl, h⟩
    | some ref =>
      simp only [href] at ht ⊢
      cases ht
      rw [h.marker hp hn h0]
      exact ⟨_, rfl, h.write _ _⟩
  · rw [if_neg hl]
    cases htarget : changeTarget ev with
    | none => simp only [htarget] at ht ⊢; cases ht; exact ⟨full, rfl, h⟩
    | some target =>
      have hrow : ∀ ref, target ≠ (ref, lockPredicate) := fun ref he => hm ref (he ▸ htarget)
      have hid : full.identityKey ev = t.identityKey ev :=
        congrArg (Option.filter · (identityEventTarget ev)) (funext fun k => by rw [h.isLocked])
      simp only [htarget, Table.reduceChange] at ht ⊢
      rw [h.isLocked, h.rowOrSeed hrow, hid]
      split at ht <;> rename_i hlocked
      · rw [if_pos hlocked]
        cases ht
        exact ⟨full, rfl, h⟩
      · rw [if_neg hlocked]
        cases hk : t.identityKey ev with
        | none => simp only [hk] at ht ⊢; cases ht; exact ⟨_, rfl, h.write _ _⟩
        | some k =>
          simp only [hk, Option.map_eq_some_iff] at ht ⊢
          rw [h.rowOrSeed (identity_ne_marker (Option.filter_eq_some_iff.1 hk).1)]
          obtain ⟨r, hr, rfl⟩ := ht
          exact ⟨_, ⟨r, hr, rfl⟩, (h.write _ _).write _ _⟩

end Step

theorem PlainMarkers.state {t : Table} (h : PlainMarkers t) {ref : String} {r : ScalarRow} (hr : t (ref, lockPredicate) = some r) :
    (r.state.isStr "LOCKED" || r.state.isStr "UNLOCKED") = true := by
  obtain ⟨locked, n, rfl⟩ := h ref r hr
  cases locked <;> rfl

theorem PlainMarkers.write {t : Table} (h : PlainMarkers t) {k : Key} (hk : ∀ ref, k ≠ (ref, lockPredicate)) (r : Option ScalarRow) :
    PlainMarkers (upd t k r) := by
  intro ref r' hr
  rw [upd_ne _ _ (hk ref).symm] at hr
  exact h ref r' hr

theorem PlainMarkers.reduce {t t' : Table} {ev : SemanticEvent} (h : PlainMarkers t) (hm : LeavesMarkers ev)
    (ht : t.reduce ev = some t') : PlainMarkers t' := by
  unfold Table.reduce at ht
  split at ht
  · cases href : entityRefOf ev with
    | none => simp only [href] at ht; cases ht; exact h
    | some ref =>
      simp only [href] at ht
      cases ht
      intro ref' r hr
      by_cases hk : (ref', lockPredicate) = (ref, lockPredicate)
      · cases hk
        rw [upd_self] at hr
        cases hr
        refine ⟨ev.eventType = .Locked, if ev.seq.getD 0 = 0 then (t.rowOrSeed (ref, lockPredicate)).seq else ev.seq.getD 0, ?_⟩
        cases hrow : t (ref, lockPredicate) with
        | none => rw [Table.rowOrSeed, hrow]; rfl
        | some r =>
          obtain ⟨locked, n, rfl⟩ := h ref r hrow
          rw [Table.rowOrSeed, hrow]
          rfl
      · rw [upd_ne _ _ hk] at hr
        exact h ref' r hr
  · cases htarget : changeTarget ev with
    | none => simp only [htarget] at ht; cases ht; exact h
    | some target =>
      have hrow : ∀ ref, target ≠ (ref, lockPredicate) := fun ref he => hm ref (he ▸ htarget)
      simp only [htarget, Table.reduceChange] at ht
      split at ht
      · cases ht
        exact h
      · cases hk : t.identityKey ev with
        | none => simp only [hk] at ht; cases ht; exact h.write hrow _
        | some k =>
          simp only [hk, Option.map_eq_some_iff] at ht
          obtain ⟨r, -, rfl⟩ := ht
          exact (h.write hrow _).write (identity_ne_marker (Option.filter_eq_some_iff.1 hk).1) _

theorem Hides.reduceAll {evs : List SemanticEvent} (hseq : ∀ ev ∈ evs, ∃ n, ev.seq = some n ∧ 0 < n)
    (hm : ∀ ev ∈ evs, LeavesMarkers ev) : ∀ {t full t' : Table}, Hides t full → PlainMarkers full → t.reduceAll evs = some t' →
      ∃ full', full.reduceAll evs = some full' ∧ Hides t' full' ∧ PlainMarkers full' := by
  induction evs with
  | nil => intro t full t' h hp ht; cases ht; exact ⟨full, rfl, h, hp⟩
  | cons ev evs ih =>
    intro t full t' h hp ht
    obtain ⟨t₁, h₁, h₂⟩ := Option.bind_eq_some_iff.1 ht
    obtain ⟨n, hn, h0⟩ := hseq ev (by simp)
    have hev := hm ev (by simp)
    obtain ⟨full₁, hf₁, hh₁⟩ := h.reduce hp hn h0 hev h₁
    obtain ⟨full', hf', hh', hp'⟩ := ih (fun e he => hseq e (by simp [he])) (fun e he => hm e (by simp [he])) hh₁
      (hp.reduce hev hf₁) h₂
    exact ⟨full', Option.bind_eq_some_iff.2 ⟨full₁, hf₁, hf'⟩, hh', hp'⟩

/-! ## The inline rows are the rebuilt rows -/

/-- What keeps the stored rows those of a rebuild: the append keeps the locks, and writes no marker but by lock events. -/
def KeepsShown (db : Db) (call : Call) : Prop :=
  KeepsLocks db call ∧ ∀ ev ∈ call.events, LeavesMarkers ev.event

/-- The fold of the log holds the stored rows and unlocked markers, which are not stored. -/
structure Shown (db : Db) : Prop where
  locks : LocksFollow db
  fold : ∃ full, Table.reduceAll (fun _ => none) (logOf db.events) = some full ∧ Hides db.state full ∧ PlainMarkers full

/-- A stored row of a fold, where no unlocked marker lies over a stored row. -/
theorem store_hides {t t₁ full : Table} (hkeep : ∀ ref, t₁.isUnlocked ref = true → t (ref, lockPredicate) = none)
    (hsome : ∀ k, (t k).isSome → (t₁ k).isSome) (h : Hides t₁ full) : Hides (store t t₁) full := by
  intro k
  unfold store
  cases hk : t₁ k with
  | none =>
    have hnone : t k = none := by
      cases ht : t k with
      | none => rfl
      | some r => have := hsome k (by rw [ht]; rfl); rw [hk] at this; cases this
    rcases h k with he | ⟨ref, rfl, -, hu⟩
    · exact .inl (by rw [he, hk, hnone])
    · exact .inr ⟨ref, rfl, hnone, hu⟩
  | some r =>
    have he : full k = some r := by
      rcases h k with he | ⟨ref, -, hnone, -⟩
      · rw [he, hk]
      · rw [hk] at hnone
        cases hnone
    dsimp only
    split
    · rename_i hmarker
      rw [Bool.and_eq_true, decide_eq_true_eq] at hmarker
      have hkey : k = (k.1, lockPredicate) := Prod.ext rfl hmarker.1
      refine .inr ⟨k.1, hkey, ?_, ?_⟩
      · rw [hkey]
        refine hkeep k.1 ?_
        rw [Table.isUnlocked, ← hkey, hk]
        exact hmarker.2
      · rw [Table.isUnlocked, ← hkey, he]
        exact hmarker.2
    · exact .inl he

/-- The events that fold have seqs from the first new one on. -/
theorem semanticWithSeqs_after {evs : List SemanticEvent} {start count : Nat} {ev : SemanticEvent}
    (h : ev ∈ semanticWithSeqs evs (List.range' start count)) : ∃ n, ev.seq = some n ∧ start ≤ n := by
  obtain ⟨seqs, hs, hsub⟩ := semanticWithSeqs_seqs evs (List.range' start count)
  have hmem : ev.seq ∈ seqs.map some := by rw [← hs]; exact List.mem_map_of_mem h
  obtain ⟨n, hn, hseq⟩ := List.mem_map.1 hmem
  exact ⟨n, hseq.symm, (List.mem_range'_1.1 (hsub.mem hn)).1⟩

theorem shown_preserved {db : Db} {call : Call} (h : Shown db) (hok : KeepsShown db call) : Shown (append db call).1 := by
  obtain ⟨hlocks, hmarkers⟩ := hok
  refine ⟨locksFollow_preserved h.locks hlocks, ?_⟩
  obtain ⟨hrep, hstale, hkeep⟩ := hlocks
  obtain ⟨full, hfold, hhides, hplain⟩ := h.fold
  rcases append_cases db call hrep with ⟨n, hn, he⟩ | ⟨prepared, t', hp, ht, he⟩ <;> rw [he]
  · exact ⟨full, hfold, hhides, hplain⟩
  · have hw := batch_wellTargeted hp
    have hws := semanticWithSeqs_wellTargeted (List.range' db.nextSeq call.events.length) hw
    obtain ⟨t₁, h₁, rfl⟩ := applyTier0_ok h.locks.keyed hw hstale ht
    have hseq : ∀ ev ∈ semanticWithSeqs (call.events.map (·.event)) (List.range' db.nextSeq call.events.length),
        ∃ m, ev.seq = some m ∧ 0 < m := fun ev he => by
      obtain ⟨m, hm, hle⟩ := semanticWithSeqs_after he
      exact ⟨m, hm, Nat.lt_of_lt_of_le h.locks.log.start hle⟩
    have hleaves : ∀ ev ∈ semanticWithSeqs (call.events.map (·.event)) (List.range' db.nextSeq call.events.length),
        LeavesMarkers ev := fun ev he => by
      obtain ⟨e, m, hm, rfl⟩ := semanticWithSeqs_mem he
      obtain ⟨o, ho, rfl⟩ := List.mem_map.1 (List.mem_filter.1 hm).1
      exact hmarkers o ho
    obtain ⟨full', hf', hh', hp'⟩ := hhides.reduceAll hseq hleaves hplain h₁
    refine ⟨full', ?_, store_hides (fun ref hu => ?_) (fun k => Table.reduceAll_some h₁) hh', hp'⟩
    · rw [logOf_append, Table.reduceAll_append, hfold, Option.bind_some, reduceAll_alike (rowsFrom_alike _ hp), hf']
    · -- the batch releases the entity, so no stored marker locks it, and a stored marker is no unlocked one
      have hends := reduceAll_endsUnlocked hws ref false h.locks.keyed
        (fun hc => by rw [h.locks.stored ref] at hc; cases hc) h₁ hu
      rw [semanticWithSeqs_unlockStep ref false (by simp)] at hends
      have hfree := hkeep ref hends
      have hstored := h.locks.stored ref
      cases hr : db.state (ref, lockPredicate) with
      | none => rfl
      | some r =>
        have hrow : full (ref, lockPredicate) = some r := by
          rcases hhides (ref, lockPredicate) with he | ⟨_, -, hnone, -⟩
          · rw [he, hr]
          · rw [hr] at hnone
            cases hnone
        rw [Table.isLocked, hr, Option.any_some] at hfree
        rw [Table.isUnlocked, hr, Option.any_some] at hstored
        have hstate := hplain.state hrow
        rw [hfree, hstored] at hstate
        cases hstate

theorem shown_run {db : Db} (h : Run appendStep KeepsShown {} db) : Shown db := by
  refine h.inv Shown ⟨⟨.empty, nofun, nofun, fun _ => rfl, fun _ => rfl⟩, _, rfl, .refl _, nofun⟩ fun db call db' hi hok hs => ?_
  cases hs
  exact shown_preserved hi hok

/-- After appends that each keep the rows, a rebuild of the log stores the rows there are. -/
theorem Shown.rebuild {db : Db} (h : Shown db) : Projections.rebuild db.events = .ok db.state := by
  obtain ⟨full, hfold, hhides, hplain⟩ := h.fold
  rw [rebuild_fold h.locks.log.ordered h.locks.log.positive h.locks.log.targeted hfold]
  refine congrArg _ (funext fun k => ?_)
  unfold store
  rcases hhides k with he | ⟨ref, rfl, hnone, hu⟩
  · rw [he]
    cases hk : db.state k with
    | none => rfl
    | some r =>
      refine if_neg fun hmarker => ?_
      rw [Bool.and_eq_true, decide_eq_true_eq] at hmarker
      have hstored := h.locks.stored k.1
      rw [Table.isUnlocked, ← hmarker.1, hk] at hstored
      rw [Option.any_some, hmarker.2] at hstored
      cases hstored
  · rw [hnone]
    rw [Table.isUnlocked] at hu
    cases hf : full (ref, lockPredicate) with
    | none => rfl
    | some r =>
      rw [hf, Option.any_some] at hu
      exact if_pos (by rw [Bool.and_eq_true, decide_eq_true_eq]; exact ⟨rfl, hu⟩)

end Umd.Ledger
