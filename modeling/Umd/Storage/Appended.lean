import Umd.Storage.InlineFold
/-!
# The log under any appends

Whatever a call is, an append extends the log by rows in seq order, and each of
them was inserted from an accepted event that replays as an accepted event.
This holds also of the calls that `append_cases` leaves out.
-/

namespace Umd.Ledger

open Umd.Lib Umd.Events Umd.Reducer Umd.Projections

/-- A row as `prepare` made it. -/
def Prepared (r : EventRow) : Prop := ∃ ev pe n key, SemanticEvent.prepare ev = .ok pe ∧ r = .of pe n key

/-- `prepare` validates what it stores. -/
theorem prepare_latest {ev : SemanticEvent} {pe : PreparedEvent} (h : ev.prepare = .ok pe) :
    ∃ v s, loadSchema ev.eventType v = some s ∧ s.valid (.obj ev.payload) = true ∧
      pe.eventType = ev.eventType ∧ pe.eventVersion = (upcastPayload ev.eventType v ev.payload).1 ∧
      pe.payload = (upcastPayload ev.eventType v ev.payload).2 ∧
      ∃ s', loadSchema pe.eventType pe.eventVersion = some s' ∧ s'.valid (.obj pe.payload) = true := by
  obtain ⟨v, s, hs, hv, hpe⟩ := prepare_ok h
  refine ⟨v, s, hs, hv, by rw [hpe], by rw [hpe], by rw [hpe], ?_⟩
  simp only [SemanticEvent.prepare, bind, Except.bind] at h
  split at h
  · cases h
  · rename_i v' hd
    split at h
    · cases h
    · split at h
      · cases h
      · rename_i hlast
        simp only [pure, Except.pure, Except.ok.injEq] at h
        unfold validatePayload at hlast
        split at hlast
        · cases hlast
        · rename_i s' hs'
          split at hlast
          · rename_i hv'
            rw [← h]
            exact ⟨s', hs', hv'⟩
          · cases hlast

/-- A stored row is of the latest version: its replay reads the payload as it is stored. -/
theorem Prepared.payload {r : EventRow} (h : Prepared r) : (upcast r).payload = r.payload := by
  obtain ⟨ev, pe, n, key, hp, rfl⟩ := h
  obtain ⟨v, s, hs, -, hty, hver, -⟩ := prepare_latest hp
  have hlatest := upcast_latest hs ev.payload pe.payload
  simp only [upcast, EventRow.of, hty, hver, if_neg hlatest.2]
  exact hlatest.1

/-- A stored row replays as an accepted event. -/
theorem Prepared.accepted {r : EventRow} (h : Prepared r) : Accepted (upcast r) := by
  have hpayload := h.payload
  obtain ⟨ev, pe, n, key, hp, rfl⟩ := h
  obtain ⟨v, s, hs, hv, hty, hver, hpay, s', hs', hv'⟩ := prepare_latest hp
  refine ⟨pe.eventVersion, s', hs', ?_⟩
  rw [hpayload]
  exact hv'

/-- What the inserts of a batch add, whether or not one finds its key taken. -/
theorem insertAll_rows (call : Call) (items : List (EventObj × PreparedEvent)) :
    ∀ db : Db, ∃ new, (insertAll call db items).1.events = db.events ++ new ∧ (insertAll call db items).1.state = db.state ∧
      (new.map (·.seq)).Pairwise (· < ·) ∧ db.nextSeq ≤ (insertAll call db items).1.nextSeq ∧
      ∀ r ∈ new, db.nextSeq ≤ r.seq ∧ r.seq < (insertAll call db items).1.nextSeq ∧
        ∃ item ∈ items, ∃ n key, r = .of item.2 n key := by
  induction items with
  | nil => exact fun db => ⟨[], by simp [insertAll], rfl, .nil, Nat.le_refl _, by simp⟩
  | cons item items ih =>
    obtain ⟨ev, pe⟩ := item
    intro db
    simp only [insertAll, insertRow]
    cases (insertKey call ev).bind (seqOfKey db.events) with
    | some existing => exact ⟨[], by simp, rfl, .nil, Nat.le_succ _, by simp⟩
    | none =>
      obtain ⟨new, hev, hst, hord, hnext, hnew⟩ :=
        ih { db with events := db.events ++ [.of pe db.nextSeq (insertKey call ev)], nextSeq := db.nextSeq + 1 }
      dsimp only at hev hst hord hnext hnew ⊢
      generalize insertAll call
        { db with events := db.events ++ [.of pe db.nextSeq (insertKey call ev)], nextSeq := db.nextSeq + 1 } items = x
        at hev hst hnext hnew ⊢
      obtain ⟨db', r⟩ := x
      have hdone : ∃ new, db'.events = db.events ++ new ∧ db'.state = db.state ∧ (new.map (·.seq)).Pairwise (· < ·) ∧
          db.nextSeq ≤ db'.nextSeq ∧ ∀ r ∈ new, db.nextSeq ≤ r.seq ∧ r.seq < db'.nextSeq ∧
            ∃ item ∈ (ev, pe) :: items, ∃ n key, r = .of item.2 n key := by
        refine ⟨.of pe db.nextSeq (insertKey call ev) :: new, by rw [hev]; simp, hst, ?_, Nat.le_of_succ_le hnext, ?_⟩
        · rw [List.map_cons, List.pairwise_cons]
          refine ⟨fun m hm => ?_, hord⟩
          obtain ⟨r', hr', rfl⟩ := List.mem_map.1 hm
          exact (hnew r' hr').1
        · intro r' hr'
          rcases List.mem_cons.1 hr' with rfl | hr'
          · exact ⟨Nat.le_refl _, hnext, (ev, pe), by simp, _, _, rfl⟩
          · obtain ⟨h1, h2, it, hit, hof⟩ := hnew r' hr'
            exact ⟨Nat.le_of_succ_le h1, h2, it, List.mem_cons_of_mem _ hit, hof⟩
      cases r <;> exact hdone

theorem prepareAll_mem {evs : List EventObj} {prepared : List PreparedEvent} (h : prepareAll evs = .ok prepared) :
    ∀ pe ∈ prepared, ∃ ev : SemanticEvent, ev.prepare = .ok pe := by
  induction evs generalizing prepared with
  | nil => cases h; simp
  | cons ev evs ih =>
    obtain ⟨pe, ps, rfl, hpe, hps⟩ := prepareAll_cons h
    intro pe' hm
    rcases List.mem_cons.1 hm with rfl | hm
    · exact ⟨_, hpe⟩
    · exact ih hps pe' hm

/-- **What any append adds to the log.** -/
theorem append_rows (db : Db) (call : Call) :
    ∃ new, (append db call).1.events = db.events ++ new ∧ (new.map (·.seq)).Pairwise (· < ·) ∧
      db.nextSeq ≤ (append db call).1.nextSeq ∧
      ∀ r ∈ new, db.nextSeq ≤ r.seq ∧ r.seq < (append db call).1.nextSeq ∧ Prepared r := by
  have hsame : ∃ new : List EventRow, db.events = db.events ++ new ∧ (new.map (·.seq)).Pairwise (· < ·) ∧
      db.nextSeq ≤ db.nextSeq ∧ ∀ r ∈ new, db.nextSeq ≤ r.seq ∧ r.seq < db.nextSeq ∧ Prepared r :=
    ⟨[], by simp, .nil, Nat.le_refl _, by simp⟩
  unfold append
  split
  · exact hsame
  · split
    · exact hsame
    · split
      · exact hsame
      · split
        · exact hsame
        · rename_i prepared hp
          obtain ⟨new, hev, hst, hord, hnext, hnew⟩ := insertAll_rows call (call.events.zip prepared) db
          have hprep : ∀ r ∈ new, db.nextSeq ≤ r.seq ∧ r.seq < (insertAll call db (call.events.zip prepared)).1.nextSeq ∧
              Prepared r := by
            intro r hr
            obtain ⟨h1, h2, ⟨ev, pe⟩, hit, n, key, hof⟩ := hnew r hr
            obtain ⟨sem, hsem⟩ := prepareAll_mem hp pe (List.of_mem_zip hit).2
            exact ⟨h1, h2, sem, pe, n, key, hsem, hof⟩
          split
          · rename_i db' existing hd
            rw [hd] at hev hnext hprep
            exact ⟨new, hev, hord, hnext, hprep⟩
          · rename_i db' seqs hd
            rw [hd] at hev hnext hprep
            split
            · exact ⟨[], by simp [rollback], .nil, hnext, by simp⟩
            · exact ⟨new, hev, hord, hnext, hprep⟩

/-- The log as any appends leave it. -/
structure Stored (db : Db) : Prop where
  ordered : (db.events.map (·.seq)).Pairwise (· < ·)
  positive : ∀ r ∈ db.events, 0 < r.seq
  below : ∀ r ∈ db.events, r.seq < db.nextSeq
  start : 0 < db.nextSeq
  prepared : ∀ r ∈ db.events, Prepared r

theorem Stored.empty : Stored {} := ⟨.nil, by simp, by simp, Nat.one_pos, by simp⟩

theorem Stored.append {db : Db} (h : Stored db) (call : Call) : Stored (append db call).1 := by
  obtain ⟨new, hev, hord, hnext, hnew⟩ := append_rows db call
  refine ⟨?_, fun r hr => ?_, fun r hr => ?_, Nat.lt_of_lt_of_le h.start hnext, fun r hr => ?_⟩
  · rw [hev, List.map_append, List.pairwise_append]
    refine ⟨h.ordered, hord, fun a ha b hb => ?_⟩
    obtain ⟨r, hr, rfl⟩ := List.mem_map.1 ha
    obtain ⟨r', hr', rfl⟩ := List.mem_map.1 hb
    exact Nat.lt_of_lt_of_le (h.below r hr) (hnew r' hr').1
  all_goals
    rw [hev] at hr
    rcases List.mem_append.1 hr with hr | hr
  · exact h.positive r hr
  · exact Nat.lt_of_lt_of_le h.start (hnew r hr).1
  · exact Nat.lt_of_lt_of_le (h.below r hr) hnext
  · exact (hnew r hr).2.1
  · exact h.prepared r hr
  · exact (hnew r hr).2.2

theorem Stored.tail_lt {db : Db} (h : Stored db) : tailOf db.events < db.nextSeq := tailOf_lt h.start h.below

end Umd.Ledger
