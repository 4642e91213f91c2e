import Umd.Storage.Transactions
/-!
# Incremental replay beside appends

`ReplayDriver` runs of event-applying projections, never wiped and with poison
disabled, beside the `append` transactions of the ledger. A run takes the
projection's advisory lock, reads its checkpoint, reads the committed events,
passes those past the checkpoint to `apply` in seq order, and saves its
`applied_seq` with what `apply` wrote. The checkpoint is the highest seq seen,
so an event that becomes visible below it is lost (`late_commit_lost`), and
none is as long as no run reads while a lower seq is in flight
(`replay_complete`).
-/

namespace Umd.Projections

open Umd.Lib Umd.Ledger Umd.Reducer

/-- Where a driver stands in `_run_locked`. -/
inductive Replay where
  | idle
  /-- It holds the lock of the projection and has read the checkpoint. -/
  | begun (name : String) (checkpoint : Nat)
  /-- It has read the log; `todo` is not yet passed to `apply`, `done` is. -/
  | applying (name : String) (todo done : List EventRow)

/-- The ledger, the stored projections, and the drivers. -/
structure World extends Sys where
  /-- `applied_seq` of `projection_checkpoint`, 0 without a row. -/
  checkpoint : String → Nat := fun _ => 0
  /-- The events whose `apply` has been committed. -/
  applied : String → List EventRow := fun _ => []
  /-- The driver that holds the advisory lock. -/
  lock : String → Option Nat := fun _ => none
  run : Nat → Replay := fun _ => .idle
  /-- The attribute of a driver; it outlives a run and is shared by the
  projections the driver runs. -/
  appliedSeq : Nat → Nat := fun _ => 0

inductive ReplayAct where
  | ledger (a : Act)
  | begin (d : Nat) (name : String)
  | load (d : Nat)
  | apply (d : Nat)
  | save (d : Nat)
  /-- The run raises, and its transaction is rolled back. -/
  | fail (d : Nat)

namespace World

variable (calls : Nat → Call)

/-- The events a run passes to `apply`: those past the checkpoint it read. -/
def pending (w : World) (checkpoint : Nat) : List EventRow :=
  (loadEvents w.events 0).filter fun r => checkpoint < r.seq

def release (w : World) (d : Nat) (name : String) : World :=
  { w with lock := upd w.lock name none, run := upd w.run d .idle }

/-- One step of the ledger or of a driver. -/
def step (w : World) : ReplayAct → Option World
  | .ledger a => (Ledger.step calls w.toSys a).map fun s => { w with toSys := s }
  | .begin d name =>
    match w.run d, w.lock name with
    | .idle, none => some { w with lock := upd w.lock name (some d), run := upd w.run d (.begun name (w.checkpoint name)) }
    | _, _ => none
  | .load d =>
    match w.run d with
    | .begun name checkpoint => some { w with run := upd w.run d (.applying name (w.pending checkpoint) []) }
    | _ => none
  | .apply d =>
    match w.run d with
    | .applying name (r :: todo) done =>
      some { w with run := upd w.run d (.applying name todo (done ++ [r])), appliedSeq := upd w.appliedSeq d r.seq }
    | _ => none
  | .save d =>
    match w.run d with
    | .applying name [] done =>
      some { w.release d name with
        checkpoint := upd w.checkpoint name (w.appliedSeq d), applied := upd w.applied name (w.applied name ++ done) }
    | _ => none
  | .fail d =>
    match w.run d with
    | .begun name _ => some (w.release d name)
    | .applying name _ _ => some (w.release d name)
    | .idle => none

end World

/-- `ConsistencyGuard.ensure_read` at its last snapshot: whether the read goes through. -/
def ensureRead (appliedSeq : Nat) : Option Nat → Bool
  | none => true
  | some token => token ≤ appliedSeq

variable {calls : Nat → Call}

/-- What replay and the guard promise. -/
structure Complete (w : World) : Prop where
  /-- No event up to the checkpoint is missed. -/
  applied : ∀ name, ∀ r ∈ w.events, r.seq ≤ w.checkpoint name → r ∈ w.applied name
  /-- A read let through for the token of a commit sees the event of the token
  and every event committed with it. -/
  read : ∀ name i rows res, w.tx i = .committed rows res →
    ensureRead (w.checkpoint name) (some res.readYourWritesToken) = true →
    ∃ r ∈ w.applied name, r.seq = res.readYourWritesToken ∧
      ∀ j, r ∈ (w.tx j).log → ∀ r' ∈ (w.tx j).log, r' ∈ w.applied name

/-- No run reads the log while a transaction in flight holds a seq below a committed one. -/
def ReadsSettled (w : World) : ReplayAct → Prop
  | .load _ => ∀ i, (w.tx i).inFlight = true → ∀ m ∈ (w.tx i).held, ∀ r ∈ w.events, r.seq < m
  | _ => True

/-! ## Events that are covered -/

/-- `rows` hold every committed event up to `n`, and of a transaction all events
or none; what is in flight lies above both. -/
structure Covered (s : Sys) (n : Nat) (rows : List EventRow) : Prop where
  complete : ∀ r ∈ s.events, r.seq ≤ n → r ∈ rows
  whole : ∀ i, ∀ r ∈ (s.tx i).log, r ∈ rows → ∀ r' ∈ (s.tx i).log, r' ∈ rows
  ahead : ∀ i, (s.tx i).inFlight = true → ∀ m ∈ (s.tx i).held, n < m ∧ ∀ r ∈ rows, r.seq < m
  below : n < s.nextSeq ∧ ∀ r ∈ rows, r.seq < s.nextSeq

theorem committing_held {call : Call} {s s' : Sys} {i : Nat} (hm : Moves call s i s') {r : EventRow} (hr : r ∈ (s'.tx i).log) :
    (s.tx i).inFlight = true ∧ r.seq ∈ (s.tx i).held := by
  cases hm with
  | @leave p _ left =>
    rw [show (s.finish i p).tx i = p from upd_self .., left.held.2] at hr
    cases hr
  | commit ht | settle ht =>
    simp only [Sys.finish, upd_self, Phase.log] at hr
    rw [ht]
    exact ⟨rfl, List.mem_map_of_mem hr⟩
  | _ => simp [Sys.enter, Phase.log] at hr

/-- Appends leave what is covered covered. -/
theorem Covered.moves {s s' : Sys} {i n : Nat} {rows : List EventRow} (h : Covered s n rows) (hm : Moves (calls i) s i s') :
    Covered s' n rows where
  complete r hr hle := by
    rw [hm.events] at hr
    rcases List.mem_append.1 hr with hr | hr
    · exact h.complete r hr hle
    · obtain ⟨hf, hheld⟩ := committing_held hm hr
      have := (h.ahead i hf r.seq hheld).1
      omega
  whole j r hr hmem := by
    by_cases hj : j = i
    · subst hj
      obtain ⟨hf, hheld⟩ := committing_held hm hr
      exact absurd ((h.ahead j hf r.seq hheld).2 r hmem) (Nat.lt_irrefl _)
    · rw [hm.other hj] at hr ⊢
      exact h.whole j r hr hmem
  ahead j hf m hmm := by
    by_cases hj : j = i
    · subst hj
      obtain ⟨hf', hm' | rfl⟩ := hm.held_cases hf hmm
      · exact h.ahead j hf' m hm'
      · exact h.below
    · rw [hm.other hj] at hf hmm
      exact h.ahead j hf m hmm
  below := ⟨Nat.lt_of_lt_of_le h.below.1 hm.nextSeq_le, fun r hr => Nat.lt_of_lt_of_le (h.below.2 r hr) hm.nextSeq_le⟩

/-- A lower bound is covered too. -/
theorem Covered.lower {s : Sys} {n n' : Nat} {rows : List EventRow} (h : Covered s n rows) (hn : n' ≤ n) : Covered s n' rows :=
  ⟨fun r hr hle => h.complete r hr (Nat.le_trans hle hn), h.whole,
    fun i hf m hm => ⟨Nat.lt_of_le_of_lt hn (h.ahead i hf m hm).1, (h.ahead i hf m hm).2⟩,
    ⟨Nat.lt_of_le_of_lt hn h.below.1, h.below.2⟩⟩

/-! ## Tokens -/

/-- The seq a call returns, or is about to, is that of an event. -/
def TokenOk (s : Sys) : Phase → Prop
  | .deduped rows existing => ∃ r ∈ s.events ++ rows, r.seq = existing
  | .committed _ res => ∃ r ∈ s.events, r.seq = res.readYourWritesToken
  | _ => True

theorem seqOfKey_seq {rows : List EventRow} {key : Uuid} {n : Nat} (h : seqOfKey rows key = some n) :
    ∃ r ∈ rows, r.seq = n := by
  obtain ⟨r, hr, rfl⟩ := Option.map_eq_some_iff.1 h
  exact ⟨r, List.mem_of_find?_eq_some hr, rfl⟩

theorem TokenOk.moves {s s' : Sys} {i n : Nat} (hm : Moves (calls i) s i s') (ho : (s.tx i).Ok (calls i) n)
    (h : ∀ j, TokenOk s (s.tx j)) : ∀ j, TokenOk s' (s'.tx j) := by
  intro j
  by_cases hj : j = i
  · subst hj
    have hj := h j
    cases hm with
    | @leave p _ left =>
      rw [show (s.finish j p).tx j = p from upd_self ..]
      cases p with
      | committed rows res =>
        obtain ⟨-, key, m, -, hn, rfl⟩ := left
        exact seqOfKey_seq hn
      | raised | aborted => trivial
      | _ => cases left
    | dedup ht hk hf =>
      simp only [Sys.enter, upd_self]
      exact seqOfKey_seq hf
    | @commit rows state first ht token =>
      rw [ht] at ho
      simp only [Sys.finish, upd_self, TokenOk]
      obtain ⟨r, rest, hrows⟩ := List.exists_cons_of_ne_nil (Inserted.whole ho.shaped).1
      exact ⟨r, by rw [hrows]; simp, by rw [token, hrows]; rfl⟩
    | settle ht =>
      rw [ht] at hj
      simp only [Sys.finish, upd_self]
      exact hj
    | _ => simp [Sys.enter, TokenOk]
  · rw [hm.other hj]
    have hj := h j
    cases hp : s.tx j with
    | deduped rows existing =>
      rw [hp] at hj
      obtain ⟨r, hr, hs⟩ := hj
      refine ⟨r, ?_, hs⟩
      rw [hm.events]
      simp only [List.mem_append] at hr ⊢
      exact hr.imp .inl id
    | committed rows res =>
      rw [hp] at hj
      obtain ⟨r, hr, hs⟩ := hj
      exact ⟨r, by rw [hm.events]; exact List.mem_append_left _ hr, hs⟩
    | _ => trivial

/-! ## Drivers -/

/-- The seq a run leaves in its driver once `todo` is applied. -/
def finalSeq (todo : List EventRow) (appliedSeq : Nat) : Nat := (todo.map (·.seq)).getLastD appliedSeq

/-- What a driver in a run knows: it has the lock, and what it has read covers what it will save. -/
def DriverOk (w : World) (d : Nat) : Prop :=
  match w.run d with
  | .idle => True
  | .begun name checkpoint => w.lock name = some d ∧ checkpoint = w.checkpoint name
  | .applying name todo done => w.lock name = some d ∧ (∀ r ∈ todo, r ∈ w.events) ∧
      Covered w.toSys (finalSeq todo (w.appliedSeq d)) (w.applied name ++ (done ++ todo))

/-- A step that leaves the driver and the projection it has locked. -/
theorem DriverOk.congr {w w' : World} {d : Nat} (h : DriverOk w d) (hs : w'.toSys = w.toSys) (hr : w'.run d = w.run d)
    (ha : w'.appliedSeq d = w.appliedSeq d)
    (hn : ∀ name, w.lock name = some d →
      w'.lock name = some d ∧ w'.checkpoint name = w.checkpoint name ∧ w'.applied name = w.applied name) : DriverOk w' d := by
  unfold DriverOk at h ⊢
  rw [hr]
  cases hrun : w.run d with
  | idle => trivial
  | begun name checkpoint =>
    simp only [hrun] at h ⊢
    obtain ⟨hl, hc, -⟩ := hn name h.1
    exact ⟨hl, by rw [hc]; exact h.2⟩
  | applying name todo done =>
    simp only [hrun] at h ⊢
    obtain ⟨hl, -, hap⟩ := hn name h.1
    rw [hs, ha, hap]
    exact ⟨hl, h.2⟩

structure Replaying (calls : Nat → Call) (w : World) : Prop where
  seqs : SeqsOk calls w.toSys
  tokens : ∀ i, TokenOk w.toSys (w.tx i)
  covered : ∀ name, Covered w.toSys (w.checkpoint name) (w.applied name)
  drivers : ∀ d, DriverOk w d
  attr : ∀ d, w.appliedSeq d = 0 ∨ ∃ r ∈ w.events, r.seq = w.appliedSeq d

namespace Replaying

variable {w : World} {d : Nat}

theorem init : Replaying calls {} where
  seqs := .init
  tokens _ := trivial
  covered _ :=
    { complete := fun _ hr => absurd hr List.not_mem_nil
      whole := fun _ _ hr => absurd hr List.not_mem_nil
      ahead := fun _ hf => Bool.noConfusion hf
      below := ⟨Nat.one_pos, fun _ hr => absurd hr List.not_mem_nil⟩ }
  drivers _ := trivial
  attr _ := .inl rfl

theorem ledger (h : Replaying calls w) {s : Sys} {i : Nat} (hm : Moves (calls i) w.toSys i s) :
    Replaying calls { w with toSys := s } where
  seqs := h.seqs.moves hm
  tokens := TokenOk.moves hm (h.seqs.tx i) h.tokens
  covered name := (h.covered name).moves hm
  drivers d := by
    have hd := h.drivers d
    unfold DriverOk at hd ⊢
    cases hr : w.run d with
    | idle => trivial
    | begun name checkpoint => simp only [hr] at hd ⊢; exact hd
    | applying name todo done =>
      simp only [hr] at hd ⊢
      exact ⟨hd.1, fun r hm' => by rw [hm.events]; exact List.mem_append_left _ (hd.2.1 r hm'), hd.2.2.moves hm⟩
  attr d := by
    refine (h.attr d).imp_right ?_
    rintro ⟨r, hr, hs⟩
    exact ⟨r, by rw [hm.events]; exact List.mem_append_left _ hr, hs⟩

theorem begin {name : String} (h : Replaying calls w) (hl : w.lock name = none) :
    Replaying calls { w with lock := upd w.lock name (some d), run := upd w.run d (.begun name (w.checkpoint name)) } where
  seqs := h.seqs
  tokens := h.tokens
  covered := h.covered
  drivers d' := by
    by_cases hd : d' = d
    · subst hd
      simp [DriverOk]
    · refine (h.drivers d').congr rfl (upd_ne _ _ hd) rfl fun name' hl' => ⟨?_, rfl, rfl⟩
      refine (upd_ne _ _ ?_).trans hl'
      rintro rfl
      rw [hl] at hl'
      cases hl'
  attr := h.attr

theorem mem_pending {w : World} {checkpoint : Nat} {r : EventRow} :
    r ∈ w.pending checkpoint ↔ r ∈ w.events ∧ 0 < r.seq ∧ checkpoint < r.seq := by
  simp only [World.pending, loadEvents, List.mem_filter, List.mem_insertionSort, decide_eq_true_eq, and_assoc]

theorem finalSeq_mem {todo : List EventRow} (h : todo ≠ []) (a : Nat) : ∃ r ∈ todo, r.seq = finalSeq todo a := by
  obtain ⟨pre, r, rfl⟩ := (List.eq_nil_or_concat todo).resolve_left h
  exact ⟨r, by simp, by simp [finalSeq]⟩

/-- What a run reads while nothing lower is in flight, with what was applied
before, covers the log up to what the run will save. -/
theorem load {name : String} {checkpoint : Nat} (h : Replaying calls w) (hr : w.run d = .begun name checkpoint)
    (hok : ReadsSettled w (.load d)) :
    Replaying calls { w with run := upd w.run d (.applying name (w.pending checkpoint) []) } where
  seqs := h.seqs
  tokens := h.tokens
  covered := h.covered
  drivers d' := by
    by_cases hd : d' = d
    · subst hd
      have hb := h.drivers d'
      unfold DriverOk at hb
      simp only [hr] at hb
      obtain ⟨hl, rfl⟩ := hb
      have hcov := h.covered name
      have hall : ∀ r ∈ w.events, r ∈ w.applied name ++ w.pending (w.checkpoint name) := by
        intro r hm
        rw [List.mem_append]
        by_cases hle : r.seq ≤ w.checkpoint name
        · exact .inl (hcov.complete r hm hle)
        · exact .inr (mem_pending.2 ⟨hm, (h.seqs.below hm).1, Nat.lt_of_not_le hle⟩)
      have hmem : ∀ r ∈ w.applied name ++ w.pending (w.checkpoint name), r ∈ w.applied name ∨ r ∈ w.events := by
        intro r hm
        exact (List.mem_append.1 hm).imp_right fun hm => (mem_pending.1 hm).1
      simp only [DriverOk, upd_self, List.nil_append]
      refine ⟨hl, fun r hm => (mem_pending.1 hm).1, fun r hm _ => hall r hm, fun i r _ _ r' hr' => ?_, fun i hf m hm => ?_, ?_, ?_⟩
      · exact hall r' ((h.seqs.log r').2 ⟨i, hr'⟩)
      · refine ⟨?_, fun r hm' => ?_⟩
        · by_cases hp : w.pending (w.checkpoint name) = []
          · -- nothing is new, and the attribute is no higher than the checkpoint
            rw [hp]
            rcases h.attr d' with h0 | ⟨r, hm', hs⟩
            · simp only [finalSeq, List.map_nil, List.getLastD_nil, h0]
              exact ((h.seqs.tx i).range m hm).1
            · have := hok i hf m hm r hm'
              simp only [finalSeq, List.map_nil, List.getLastD_nil]
              omega
          · obtain ⟨r, hm', hs⟩ := finalSeq_mem hp (w.appliedSeq d')
            rw [← hs]
            exact hok i hf m hm r (mem_pending.1 hm').1
        · rcases hmem r hm' with hm' | hm'
          · exact (hcov.ahead i hf m hm).2 r hm'
          · exact hok i hf m hm r hm'
      · show finalSeq _ _ < w.nextSeq
        by_cases hp : w.pending (w.checkpoint name) = []
        · rw [hp]
          simp only [finalSeq, List.map_nil, List.getLastD_nil]
          rcases h.attr d' with h0 | ⟨r, hm', hs⟩
          · rw [h0]; exact h.seqs.start
          · rw [← hs]; exact (h.seqs.below hm').2
        · obtain ⟨r, hm', hs⟩ := finalSeq_mem hp (w.appliedSeq d')
          rw [← hs]
          exact (h.seqs.below (mem_pending.1 hm').1).2
      · intro r hm'
        rcases hmem r hm' with hm' | hm'
        · exact hcov.below.2 r hm'
        · exact (h.seqs.below hm').2
    · exact (h.drivers d').congr rfl (upd_ne _ _ hd) rfl fun _ hl => ⟨hl, rfl, rfl⟩
  attr := h.attr

theorem apply {name : String} {r : EventRow} {todo done : List EventRow} (h : Replaying calls w)
    (hr : w.run d = .applying name (r :: todo) done) :
    Replaying calls { w with
      run := upd w.run d (.applying name todo (done ++ [r])), appliedSeq := upd w.appliedSeq d r.seq } where
  seqs := h.seqs
  tokens := h.tokens
  covered := h.covered
  drivers d' := by
    by_cases hd : d' = d
    · subst hd
      have hb := h.drivers d'
      unfold DriverOk at hb
      simp only [hr] at hb
      obtain ⟨hl, hm, hcov⟩ := hb
      simp only [DriverOk, upd_self]
      refine ⟨hl, fun r' hr' => hm r' (List.mem_cons_of_mem _ hr'), ?_⟩
      have hfinal : finalSeq todo r.seq = finalSeq (r :: todo) (w.appliedSeq d') := by
        rw [finalSeq, finalSeq, List.map_cons, List.getLastD_cons]
      rw [hfinal, List.append_assoc, List.singleton_append]
      exact hcov
    · exact (h.drivers d').congr rfl (upd_ne _ _ hd) (upd_ne _ _ hd) fun _ hl => ⟨hl, rfl, rfl⟩
  attr d' := by
    by_cases hd : d' = d
    · subst hd
      have hb := h.drivers d'
      unfold DriverOk at hb
      simp only [hr] at hb
      exact .inr ⟨r, hb.2.1 r (by simp), (upd_self ..).symm⟩
    · have ha : upd w.appliedSeq d r.seq d' = w.appliedSeq d' := upd_ne _ _ hd
      simp only [ha]
      exact h.attr d'

/-- The end of a run releases the lock; the other drivers have others. -/
theorem drivers_release {name : String} (h : Replaying calls w) (hl : w.lock name = some d) {w' : World}
    (hs : w'.toSys = w.toSys) (hlock : w'.lock = upd w.lock name none) (hrun : w'.run = upd w.run d .idle)
    (ha : w'.appliedSeq = w.appliedSeq)
    (hn : ∀ name', name' ≠ name → w'.checkpoint name' = w.checkpoint name' ∧ w'.applied name' = w.applied name') :
    ∀ d', DriverOk w' d' := by
  intro d'
  by_cases hd : d' = d
  · subst hd
    simp [DriverOk, hrun]
  · refine (h.drivers d').congr hs (by rw [hrun, upd_ne _ _ hd]) (by rw [ha]) fun name' hl' => ?_
    have hne : name' ≠ name := by
      rintro rfl
      exact hd (Option.some.inj (hl'.symm.trans hl))
    exact ⟨by rw [hlock, upd_ne _ _ hne, hl'], hn name' hne⟩

theorem save {name : String} {done : List EventRow} (h : Replaying calls w) (hr : w.run d = .applying name [] done) :
    Replaying calls { w.release d name with
      checkpoint := upd w.checkpoint name (w.appliedSeq d), applied := upd w.applied name (w.applied name ++ done) } := by
  have hb := h.drivers d
  unfold DriverOk at hb
  simp only [hr, List.append_nil] at hb
  obtain ⟨hl, -, hcov⟩ := hb
  refine ⟨h.seqs, h.tokens, fun name' => ?_, ?_, h.attr⟩
  · by_cases hn : name' = name
    · subst hn
      simp only [upd_self]
      exact hcov
    · simp only [upd_ne _ _ hn]
      exact h.covered name'
  · exact h.drivers_release hl rfl rfl rfl rfl fun name' hn => ⟨upd_ne _ _ hn, upd_ne _ _ hn⟩

theorem fail {name : String} (h : Replaying calls w) (hl : w.lock name = some d) : Replaying calls (w.release d name) :=
  ⟨h.seqs, h.tokens, h.covered, h.drivers_release hl rfl rfl rfl rfl fun _ _ => ⟨rfl, rfl⟩, h.attr⟩

theorem step {w' : World} {a : ReplayAct} (h : Replaying calls w) (hok : ReadsSettled w a)
    (hs : w.step calls a = some w') : Replaying calls w' := by
  cases a with
  | ledger a =>
    simp only [World.step, Option.map_eq_some_iff] at hs
    obtain ⟨s, hs, rfl⟩ := hs
    obtain ⟨i, hm⟩ := step_moves hs
    exact h.ledger hm
  | begin d name =>
    simp only [World.step] at hs
    split at hs
    · cases hs; exact h.begin ‹_›
    · cases hs
  | load d =>
    simp only [World.step] at hs
    split at hs
    · cases hs; exact h.load ‹_› hok
    · cases hs
  | apply d =>
    simp only [World.step] at hs
    split at hs
    · cases hs; exact h.apply ‹_›
    · cases hs
  | save d =>
    simp only [World.step] at hs
    split at hs
    · cases hs; exact h.save ‹_›
    · cases hs
  | fail d =>
    have hd := h.drivers d
    unfold DriverOk at hd
    simp only [World.step] at hs
    split at hs
    · rename_i hr
      rw [hr] at hd
      cases hs; exact h.fail hd.1
    · rename_i hr
      rw [hr] at hd
      cases hs; exact h.fail hd.1
    · cases hs

theorem complete (h : Replaying calls w) : Complete w where
  applied name := (h.covered name).complete
  read name i rows res ht hread := by
    have htok := h.tokens i
    rw [ht] at htok
    obtain ⟨r, hr, hs⟩ := htok
    simp only [ensureRead, decide_eq_true_eq] at hread
    have hap := (h.covered name).complete r hr (by omega)
    exact ⟨r, hap, hs, fun j hj => (h.covered name).whole j r hj hap⟩

end Replaying

/-- In every run whose reads of the log are settled, no event up to a checkpoint
is missed and no guarded read is early. -/
theorem replay_complete {w : World} (h : Run (World.step calls) ReadsSettled {} w) : Complete w :=
  (h.inv (Replaying calls) .init fun _ _ _ hi hok hs => hi.step hok hs).complete

/-- The event with the lower seq commits after the one with the higher has been replayed. -/
def lateCommit : List ReplayAct :=
  let ledger (i : Nat) := ReplayAct.ledger (.next i)
  [ledger 0, ledger 0, ledger 0, ledger 1, ledger 1, ledger 1, ledger 1, ledger 1, ledger 1, ledger 1,
    .begin 0 "search", .load 0, .apply 0, .save 0, ledger 0, ledger 0, ledger 0, ledger 0]

def twoAssertions (i : Nat) : Call :=
  one .SemanticAsserted
    [("predicate_code", .str "SPEAKS"), ("subject_ref", .str (if i = 0 then "e" else "f")), ("scope", .str "GLOBAL")]

/-- The checkpoint is past the event, and no later run applies it. -/
theorem late_commit_lost : ¬ ∀ calls w, Run (World.step calls) Any {} w → Complete w := by
  intro h
  obtain ⟨w, hw⟩ : ∃ w, runAll (World.step twoAssertions) {} lateCommit = some w := ⟨_, rfl⟩
  have hseqs : (runAll (World.step twoAssertions) {} lateCommit).map (fun w =>
      (w.events.map (·.seq), w.checkpoint "search", (w.applied "search").map (·.seq))) = some ([2, 1], 2, [2]) := by
    decide
  rw [hw] at hseqs
  simp only [Option.map_some, Option.some.injEq, Prod.mk.injEq] at hseqs
  obtain ⟨hev, hcp, hap⟩ := hseqs
  obtain ⟨r, hr, hrs⟩ := List.mem_map.1 (show 1 ∈ w.events.map (·.seq) by rw [hev]; decide)
  have hmem := (h twoAssertions w (run_of_runAll hw)).applied "search" r hr (by omega)
  have : r.seq ∈ (w.applied "search").map (·.seq) := List.mem_map_of_mem hmem
  rw [hap, hrs] at this
  exact absurd this (by decide)

/-- An append, and then a replay. -/
theorem replay_complete_settled :
    ∃ w, Run (World.step twoAssertions) ReadsSettled {} w ∧ w.checkpoint "search" = 1 ∧ Complete w := by
  let before : List ReplayAct := List.replicate 7 (.ledger (.next 0)) ++ [.begin 0 "search"]
  obtain ⟨w, hw⟩ : ∃ w, runAll (World.step twoAssertions) {} (before ++ [.load 0, .apply 0, .save 0]) = some w := ⟨_, rfl⟩
  have hcp : (runAll (World.step twoAssertions) {} (before ++ [.load 0, .apply 0, .save 0])).map
      (fun w => w.checkpoint "search") = some 1 := by
    decide
  have hover : (runAll (World.step twoAssertions) {} before).map (fun w => (w.tx 0).inFlight) = some false := by decide
  rw [hw] at hcp
  rw [runAll_append] at hw
  obtain ⟨w₁, h₁, h₂⟩ := Option.bind_eq_some_iff.1 hw
  obtain ⟨w₂, hload, h₃⟩ := Option.bind_eq_some_iff.1 h₂
  rw [h₁] at hover
  have hbefore : ∀ a ∈ before, a = .ledger (.next 0) ∨ a = .begin 0 "search" := by
    intro a ha
    rcases List.mem_append.1 ha with ha | ha
    · exact .inl (List.eq_of_mem_replicate ha)
    · exact .inr (List.mem_singleton.1 ha)
  -- the other transactions have not started
  have hothers : ∀ i, i ≠ 0 → w₁.tx i = .start := by
    have hrun : Run (World.step twoAssertions) (fun _ a => a = .ledger (.next 0) ∨ a = .begin 0 "search") {} w₁ :=
      run_of_admitted (fun a ha _ => hbefore a ha) h₁
    refine hrun.inv (fun w => ∀ i, i ≠ 0 → w.tx i = .start) (fun _ _ => rfl) fun w a w' hi ha hs i hne => ?_
    rcases ha with rfl | rfl
    · obtain ⟨s, hnext, rfl⟩ := Option.map_eq_some_iff.1 hs
      exact ((next_moves hnext).other hne).trans (hi i hne)
    · simp only [World.step] at hs
      split at hs
      · cases hs; exact hi i hne
      · cases hs
  have hsettled : ReadsSettled w₁ (.load 0) := by
    intro i hf
    by_cases hi : i = 0
    · subst hi
      have hno : (w₁.tx 0).inFlight = false := Option.some.inj hover
      rw [hno] at hf
      cases hf
    · rw [hothers i hi] at hf
      cases hf
  have hrun : Run (World.step twoAssertions) ReadsSettled {} w := by
    refine .trans (.step (run_of_admitted (fun a ha _ => ?_) h₁) hsettled hload) (run_of_admitted (fun a ha _ => ?_) h₃)
    · rcases hbefore a ha with rfl | rfl <;> trivial
    · simp only [List.mem_cons, List.not_mem_nil, or_false] at ha
      rcases ha with rfl | rfl <;> trivial
  exact ⟨w, hrun, Option.some.inj hcp, replay_complete hrun⟩

end Umd.Projections
