import Umd.Storage.Transactions
/-!
# Optimistic concurrency on the ledger tail

`expected_version` is compared with the tail once, and the inserts come later:
it is kept exactly as long as no transaction commits a higher seq behind the
back of one that has passed its check (`expected_version_kept`). Two appends
that check before either commits both commit (`both_checked_commit`).
-/

namespace Umd.Ledger

open Umd.Lib Umd.Events Umd.Reducer

variable {calls : Nat → Call}

/-- Where the transactions with an expected version stand. -/
structure VersionsKept (calls : Nat → Call) (s : Sys) : Prop where
  /-- What was committed before the rows of such a transaction is not above the version. -/
  tail : ∀ i v, (calls i).expectedVersion = some v → (s.tx i).log ≠ [] →
    ∃ pre post, s.events = pre ++ (s.tx i).log ++ post ∧ ∀ r ∈ pre, (r.seq : Int) ≤ v
  /-- At most one of a version commits rows. -/
  once : ∀ i j v, i ≠ j → (calls i).expectedVersion = some v → (calls j).expectedVersion = some v →
    (s.tx i).log ≠ [] → (s.tx j).log = []
  /-- After it, the check of another one raises the conflict and changes no table. -/
  raises : ∀ i j v, i ≠ j → (calls i).expectedVersion = some v → (calls j).expectedVersion = some v →
    (s.tx i).log ≠ [] → s.tx j = .keyRead →
    ∃ tail s', step calls s (.next j) = some s' ∧ s'.tx j = .raised (.conflict tail v) ∧ s'.toDb = s.toDb
  /-- Another one that is over has conflicted, was refused before the check, failed
  in its fold, was aborted, or returned the commit that has its key. -/
  others : ∀ i j v, i ≠ j → (calls i).expectedVersion = some v → (calls j).expectedVersion = some v →
    (s.tx i).log ≠ [] → (s.tx j).isOver = true →
    (∃ tail, s.tx j = .raised (.conflict tail v)) ∨ (calls j).events = [] ∨
      (∃ e, prepareAll (calls j).events = .error e) ∨ (∃ e, s.tx j = .raised (.python e)) ∨ s.tx j = .aborted ∨
      ∃ key n res, (calls j).idempotencyKey = some key ∧ seqOfKey s.events key = some n ∧ s.tx j = .committed [] res

/-- The rows a step commits. -/
def committing : Phase → List EventRow
  | .upserted rows _ => rows
  | .deduped rows _ => rows
  | _ => []

/-- What is committed by the side of a check: no seq above the version, or the key. -/
def Beside (call : Call) (rows : List EventRow) : Prop :=
  ∀ v, call.expectedVersion = some v → (∀ r ∈ rows, (r.seq : Int) ≤ v) ∨
    ∃ key, call.idempotencyKey = some key ∧ ∃ r ∈ rows, r.idempotencyKey = some key

/-- A commit puts no seq above the version another transaction has checked,
unless that one's key is among the rows. -/
def KeepsVersions (calls : Nat → Call) (s : Sys) : Act → Prop
  | .abort _ => True
  | .next i => ∀ j, j ≠ i → (s.tx j).inFlight = true → Beside (calls j) (committing (s.tx i))

/-! ## Keys -/

/-- The row of a key in flight is the lock holder's. -/
def KeysHeld (s : Sys) : Prop :=
  ∀ i key, (s.tx i).isOver = false → (∃ r ∈ (s.tx i).rows, r.idempotencyKey = some key) → s.keyLocks key = some i

theorem Inserted.first_key {call : Call} {ev : EventObj} {pe : PreparedEvent} {todo : List (EventObj × PreparedEvent)}
    (h : Inserted call ((ev, pe) :: todo) []) : insertKey call ev = call.idempotencyKey := by
  obtain ⟨hne, prepared, items, hp, hz, hlen, -⟩ := h
  rw [List.length_eq_zero_iff.1 hlen.symm, List.nil_append] at hz
  have hhead := congrArg List.head? hz
  cases hev : call.events with
  | nil => exact absurd hev hne
  | cons e es =>
    cases hpr : prepared with
    | nil => rw [hev, hpr] at hhead; cases hhead
    | cons p ps =>
      rw [hev, hpr] at hhead
      cases hhead
      simp [insertKey, hev]

theorem Inserted.head_key {call : Call} {todo : List (EventObj × PreparedEvent)} {rows : List EventRow}
    (h : Inserted call todo rows) (hr : rows ≠ []) : ∃ r ∈ rows, r.idempotencyKey = call.idempotencyKey := by
  obtain ⟨hne, prepared, items, hp, hz, hlen, hrows⟩ := h
  cases items with
  | nil => exact absurd (List.map_eq_nil_iff.1 (List.length_eq_zero_iff.1 hlen)) hr
  | cons item items =>
    obtain ⟨ev, pe⟩ := item
    have hfirst : insertKey call ev = call.idempotencyKey :=
      Inserted.first_key ⟨hne, prepared, [], hp, hz, rfl, rfl⟩
    obtain ⟨n, seqs, hseqs⟩ := List.exists_cons_of_length_eq_add_one hlen
    rw [hseqs] at hrows
    refine ⟨.of pe n (insertKey call ev), ?_, hfirst⟩
    rw [hrows]
    exact List.mem_cons_self

/-- The rows of a transaction that is past its check carry its key, once there are any. -/
theorem Phase.Ok.head_key {call : Call} {n : Nat} {p : Phase} (h : p.Ok call n) (hf : p.inFlight = true)
    (hr : p.rows ≠ []) : ∃ r ∈ p.rows, r.idempotencyKey = call.idempotencyKey := by
  have hs := h.shaped
  cases p with
  | inserting todo rows => exact Inserted.head_key hs hr
  | drawn n ev pe todo rows => exact Inserted.head_key hs hr
  | folded rows state => exact Inserted.head_key hs hr
  | upserted rows state => exact Inserted.head_key hs hr
  | deduped rows existing => obtain ⟨todo, ht⟩ := hs; exact ht.head_key hr
  | _ => cases hf

theorem keyLocks_finish {s : Sys} {i j : Nat} {p : Phase} {key : Uuid} (h : s.keyLocks key = some j) (hj : j ≠ i) :
    (s.finish i p).keyLocks key = some j := by
  show (s.keyLocks key).filter _ = some j
  rw [h, Option.filter_some, if_pos (by simpa using hj)]

theorem KeysHeld.moves {s s' : Sys} {i : Nat} (h : KeysHeld s) (hm : Moves (calls i) s i s') : KeysHeld s' := by
  intro j key hover hrow
  by_cases hj : j = i
  · subst hj
    have hold : (∃ r ∈ (s.tx j).rows, r.idempotencyKey = some key) → s.keyLocks key = some j := h j key hm.live
    cases hm with
    | leave _ left => rw [show (s.finish j _).tx j = _ from upd_self .., left.isOver] at hover; cases hover
    | look | check =>
      rw [show (s.enter j _).tx j = _ from upd_self ..] at hrow
      obtain ⟨r, hr, -⟩ := hrow
      cases hr
    | draw ht | load ht | dedup ht | upsert ht =>
      rw [ht] at hold
      simp only [Sys.enter, upd_self] at hrow
      exact hold hrow
    | @insert seq ev pe todo rows ht locks free taken =>
      rw [ht] at hold
      simp only [Sys.enter, upd_self] at hrow
      obtain ⟨r, hr, hk⟩ := hrow
      show locks key = some j
      rw [taken]
      split
      · rfl
      · rename_i hne
        rcases List.mem_append.1 hr with hr | hr
        · exact hold ⟨r, hr, hk⟩
        · rw [List.mem_singleton.1 hr] at hk
          exact absurd hk hne
    | commit | settle => simp [Sys.finish, Phase.isOver] at hover
  · rw [hm.other hj] at hover hrow
    have hlock := h j key hover hrow
    cases hm with
    | @leave p => exact @keyLocks_finish s i j p key hlock hj
    | @commit rows _ first => exact @keyLocks_finish s i j (.committed rows ⟨first, first⟩) key hlock hj
    | @settle rows existing => exact @keyLocks_finish s i j (.committed rows ⟨existing, existing⟩) key hlock hj
    | @insert _ _ _ _ _ ht locks free taken =>
      show locks key = some j
      rw [taken]
      split
      · rename_i he
        rw [(free key he).2] at hlock
        cases hlock
      · exact hlock
    | _ => exact hlock

/-! ## The versions checked -/

/-- A transaction past its check of `v`: no seq in the log is above `v`, and its
own are; or its key has been committed and it has no row. -/
def Checked (call : Call) (v : Int) (s : Sys) (p : Phase) : Prop :=
  ((∀ r ∈ s.events, (r.seq : Int) ≤ v) ∧ v < s.nextSeq ∧ ∀ m ∈ p.held, v < (m : Int)) ∨
    (p.rows = [] ∧ ∃ key n, call.idempotencyKey = some key ∧ seqOfKey s.events key = some n)

/-- Why a transaction is over: what it raised, and the key of one that found it committed. -/
def Ended (call : Call) (s : Sys) : Phase → Prop
  | .raised e => (∃ tail v, call.expectedVersion = some v ∧ e = .conflict tail v) ∨ call.events = [] ∨
      (∃ e, prepareAll call.events = .error e) ∨ ∃ e', e = .python e'
  | .deduped rows _ => ∃ key n, call.idempotencyKey = some key ∧ seqOfKey (s.events ++ rows) key = some n
  | .committed rows _ => rows = [] → ∃ key n, call.idempotencyKey = some key ∧ seqOfKey s.events key = some n
  | _ => True

structure Versions (calls : Nat → Call) (s : Sys) : Prop where
  seqs : SeqsOk calls s
  keys : KeysHeld s
  checked : ∀ i v, (calls i).expectedVersion = some v → (s.tx i).inFlight = true → Checked (calls i) v s (s.tx i)
  tail : ∀ i v, (calls i).expectedVersion = some v → (s.tx i).log ≠ [] →
    ∃ pre post, s.events = pre ++ (s.tx i).log ++ post ∧ (∀ r ∈ pre, (r.seq : Int) ≤ v) ∧
      ∀ r ∈ (s.tx i).log, v < (r.seq : Int)
  once : ∀ i j v, i ≠ j → (calls i).expectedVersion = some v → (calls j).expectedVersion = some v →
    (s.tx i).log ≠ [] → (s.tx j).log = []
  ended : ∀ i, Ended (calls i) s (s.tx i)

theorem checkTail_ok {rows : List EventRow} {v : Int} (h : checkTail rows (some v) = .ok ()) : (tailOf rows : Int) = v := by
  simp only [checkTail] at h
  split at h
  · assumption
  · cases h

theorem seqOfKey_append {rows rows' : List EventRow} {key : Uuid} {n : Nat} (h : seqOfKey rows key = some n) :
    seqOfKey (rows ++ rows') key = some n := by
  unfold seqOfKey at *
  obtain ⟨r, hr, rfl⟩ := Option.map_eq_some_iff.1 h
  rw [List.find?_append, hr]
  rfl

theorem seqOfKey_row {rows : List EventRow} {key : Uuid} {n : Nat} (h : seqOfKey rows key = some n) :
    ∃ r ∈ rows, r.idempotencyKey = some key := by
  obtain ⟨r, hr, -⟩ := Option.map_eq_some_iff.1 h
  exact ⟨r, List.mem_of_find?_eq_some hr, by simpa using List.find?_some hr⟩

theorem seqOfKey_mem {rows : List EventRow} {key : Uuid} {r : EventRow} (hr : r ∈ rows) (hk : r.idempotencyKey = some key) :
    ∃ n, seqOfKey rows key = some n := by
  unfold seqOfKey
  cases hf : rows.find? fun r => r.idempotencyKey == some key with
  | none => exact absurd (List.find?_eq_none.1 hf r hr) (by simp [hk])
  | some r' => exact ⟨r'.seq, rfl⟩

/-- A phase with the same rows in a state with the same log. -/
theorem Checked.same {call : Call} {v : Int} {s s' : Sys} {p p' : Phase} (h : Checked call v s p) (he : s'.events = s.events)
    (hn : s'.nextSeq = s.nextSeq) (hh : p'.held = p.held) (hr : p'.rows = p.rows) : Checked call v s' p' := by
  unfold Checked
  rw [he, hn, hh, hr]
  exact h

/-- What a transaction past its check makes of it by its own step. -/
theorem Moves.checked {call : Call} {s s' : Sys} {i : Nat} (hm : Moves call s i s') (hs : SeqsOk calls s)
    (hc : call = calls i) {v : Int} (hv : call.expectedVersion = some v)
    (hold : (s.tx i).inFlight = true → Checked call v s (s.tx i)) (hf : (s'.tx i).inFlight = true) :
    Checked call v s' (s'.tx i) := by
  have hshape := (hs.tx i).shaped
  rw [← hc] at hshape
  cases hm with
  | @leave p _ left =>
    rw [show (s.finish i p).tx i = p from upd_self .., left.inFlight] at hf
    cases hf
  | look => simp [Sys.enter, Phase.inFlight] at hf
  | check ht htail =>
    rw [hv] at htail
    have htail := checkTail_ok htail
    refine .inl ⟨fun r hr => ?_, ?_, by simp [Sys.enter, Phase.held, Phase.rows]⟩
    · have hle : r.seq ≤ tailOf s.events := le_tailOf hr
      omega
    · have := tailOf_lt hs.start fun r hr => (hs.below hr).2
      show v < (s.nextSeq : Int)
      omega
  | draw ht =>
    rw [ht] at hold
    simp only [Sys.enter, upd_self]
    rcases hold rfl with ⟨he, hn, hh⟩ | hkey
    · refine .inl ⟨he, ?_, fun m hm => ?_⟩
      · show v < ((s.nextSeq + 1 : Nat) : Int)
        omega
      · rcases List.mem_append.1 hm with hm | hm
        · exact hh m hm
        · rw [List.mem_singleton.1 hm]; exact hn
    · exact .inr hkey
  | @insert seq ev pe todo rows ht locks free =>
    rw [ht] at hold hshape
    simp only [Sys.enter, upd_self]
    rcases hold rfl with ⟨he, hn, hh⟩ | ⟨hrows, key, n, hkey, hn⟩
    · exact .inl ⟨he, hn, by simpa [Phase.held, Phase.rows, EventRow.of] using hh⟩
    · -- the first insert looks the key up again
      simp only [Phase.rows] at hrows
      subst hrows
      have hfree := (free key (hshape.first_key.trans hkey)).1
      rw [List.append_nil, hn] at hfree
      cases hfree
  | dedup ht =>
    rw [ht] at hold
    simp only [Sys.enter, upd_self]
    rcases hold rfl with ⟨he, hn, hh⟩ | hkey
    · exact .inl ⟨he, hn, fun m hm => hh m (List.mem_append_left _ hm)⟩
    · exact .inr hkey
  | load ht | upsert ht =>
    rw [ht] at hold
    simp only [Sys.enter, upd_self]
    exact (hold rfl).same rfl rfl rfl rfl
  | commit | settle => simp [Sys.finish, Phase.inFlight] at hf

/-- The rows of a commit are those `committing` tells. -/
theorem Moves.committing {call : Call} {s s' : Sys} {i : Nat} (hm : Moves call s i s') :
    (s'.tx i).log = [] ∨ ((s'.tx i).log = committing (s.tx i) ∧ (s.tx i).inFlight = true ∧
      committing (s.tx i) = (s.tx i).rows) := by
  cases hm with
  | @leave p _ left =>
    rw [show (s.finish i p).tx i = p from upd_self ..]
    exact .inl left.held.2
  | commit ht | settle ht => rw [ht]; simp [Sys.finish, Phase.log, Umd.Ledger.committing, Phase.inFlight, Phase.rows]
  | _ => exact .inl (by simp [Sys.enter, Phase.log])

/-- The commit of another transaction leaves the check in force. -/
theorem Checked.other {s s' : Sys} {i j : Nat} (h : Versions calls s) (hm : Moves (calls i) s i s') (hj : j ≠ i) {v : Int}
    (hv : (calls j).expectedVersion = some v) (hok : Beside (calls j) (s'.tx i).log)
    (hf : (s.tx j).inFlight = true) (hc : Checked (calls j) v s (s.tx j)) : Checked (calls j) v s' (s.tx j) := by
  have hn := hm.nextSeq_le
  unfold Checked
  rw [hm.events]
  rcases hc with ⟨he, hv', hh⟩ | ⟨hr, key, n, hkey, hn⟩
  · rcases hok v hv with hle | ⟨key, hkey, r, hr, hrk⟩
    · refine .inl ⟨fun r hr => ?_, by omega, hh⟩
      rcases List.mem_append.1 hr with hr | hr
      · exact he r hr
      · exact hle r hr
    · -- the key is in flight here, so it is not in flight there
      obtain ⟨n, hn⟩ := seqOfKey_mem (List.mem_append_right s.events hr) hrk
      refine .inr ⟨?_, key, n, hkey, hn⟩
      by_contra hne
      obtain ⟨r', hr', hk'⟩ := (h.seqs.tx j).head_key hf hne
      rcases hm.committing with hl | ⟨hl, hfi, hrows⟩
      · rw [hl] at hr; cases hr
      · rw [hl, hrows] at hr
        have h1 := h.keys j key (inFlight_live hf) ⟨r', hr', hk'.trans hkey⟩
        have h2 := h.keys i key (inFlight_live hfi) ⟨r, hr, hrk⟩
        rw [h1] at h2
        exact hj (Option.some.inj h2)
  · exact .inr ⟨hr, key, n, hkey, seqOfKey_append hn⟩

/-- Where a transaction commits rows past its check of `v`, no other of `v` has. -/
theorem Versions.alone {s s' : Sys} {i j : Nat} {v : Int} (h : Versions calls s) (hm : Moves (calls i) s i s')
    (hi : (calls i).expectedVersion = some v) (hj : (calls j).expectedVersion = some v) (hlog : (s'.tx i).log ≠ []) :
    (s.tx j).log = [] := by
  rcases hm.committing with hl | ⟨hl, hf, hrows⟩
  · exact absurd hl hlog
  · by_contra hne
    obtain ⟨pre, post, he, -, hown⟩ := h.tail j v hj hne
    obtain ⟨r, hr⟩ := List.exists_mem_of_ne_nil _ hne
    rcases h.checked i v hi hf with ⟨hle, -, -⟩ | ⟨hnil, -⟩
    · have h1 := hle r (by rw [he]; simp [hr])
      have h2 := hown r hr
      omega
    · rw [hl, hrows] at hlog
      exact hlog hnil

theorem Ended.mono {call : Call} {s s' : Sys} {p : Phase} {new : List EventRow} (he : s'.events = s.events ++ new)
    (h : Ended call s p) : Ended call s' p := by
  cases p with
  | deduped rows existing =>
    obtain ⟨key, n, hk, hn⟩ := h
    obtain ⟨r, hr, hrk⟩ := seqOfKey_row hn
    obtain ⟨m, hm⟩ := @seqOfKey_mem (s'.events ++ rows) key r
      (by rw [he]; simp only [List.mem_append] at hr ⊢; exact hr.imp .inl id) hrk
    exact ⟨key, m, hk, hm⟩
  | committed rows res =>
    intro hr
    obtain ⟨key, n, hk, hn⟩ := h hr
    exact ⟨key, n, hk, by rw [he]; exact seqOfKey_append hn⟩
  | raised e => exact h
  | _ => trivial

theorem key_of_insertKey {call : Call} {ev : EventObj} {key : Uuid} (h : insertKey call ev = some key) :
    call.idempotencyKey = some key := by
  unfold insertKey at h
  split at h
  · exact h
  · cases h

theorem Moves.ended {call : Call} {s s' : Sys} {i n : Nat} (hm : Moves call s i s') (ho : (s.tx i).Ok call n)
    (h : Ended call s (s.tx i)) : Ended call s' (s'.tx i) := by
  cases hm with
  | @leave p _ left =>
    rw [show (s.finish i p).tx i = p from upd_self ..]
    cases p with
    | committed rows res =>
      obtain ⟨-, key, n, hk, hn, -⟩ := left
      exact fun _ => ⟨key, n, hk, hn⟩
    | raised e =>
      rcases left with ⟨-, hb⟩ | ht | hp | hy
      · exact .inr (.inl hb)
      · cases hv : call.expectedVersion with
        | none => rw [hv] at ht; cases ht
        | some v =>
          rw [hv, checkTail] at ht
          split at ht
          · cases ht
          · cases ht; exact .inl ⟨_, v, hv, rfl⟩
      · exact .inr (.inr (.inl ⟨e, hp⟩))
      · exact .inr (.inr (.inr hy))
    | aborted => trivial
    | _ => cases left
  | dedup ht hkey hfound =>
    simp only [Sys.enter, upd_self]
    exact ⟨_, _, key_of_insertKey hkey, hfound⟩
  | commit ht =>
    rw [ht] at ho
    simp only [Sys.finish, upd_self]
    exact fun hr => absurd hr (Inserted.whole ho.shaped).1
  | @settle rows existing ht =>
    rw [ht] at h
    simp only [Sys.finish, upd_self]
    intro hr
    exact h
  | _ => simp [Sys.enter, Ended]

theorem Versions.moves {s s' : Sys} {i : Nat} (h : Versions calls s) (hm : Moves (calls i) s i s')
    (hok : ∀ j, j ≠ i → (s.tx j).inFlight = true → Beside (calls j) (s'.tx i).log) : Versions calls s' where
  seqs := h.seqs.moves hm
  keys := h.keys.moves hm
  checked j v hv hf := by
    by_cases hj : j = i
    · subst hj; exact hm.checked h.seqs rfl hv (h.checked j v hv) hf
    · rw [hm.other hj] at hf ⊢
      exact Checked.other h hm hj hv (hok j hj hf) hf (h.checked j v hv hf)
  tail j v hv hlog := by
    rw [hm.events]
    by_cases hj : j = i
    · subst hj
      rcases hm.committing with hl | ⟨hl, hf, hrows⟩
      · exact absurd hl hlog
      · have hc := h.checked j v hv hf
        rw [hl, hrows] at hlog ⊢
        rcases hc with ⟨he, -, hh⟩ | ⟨hr, -⟩
        · exact ⟨s.events, [], by simp, he, fun r hr => hh _ (rows_held hr)⟩
        · exact absurd hr hlog
    · rw [hm.other hj] at hlog ⊢
      obtain ⟨pre, post, he, hpre, hown⟩ := h.tail j v hv hlog
      exact ⟨pre, post ++ (s'.tx i).log, by rw [he]; simp, hpre, hown⟩
  once a b v hab ha hb hlog := by
    by_cases hbi : b = i
    · subst hbi
      rw [hm.other hab] at hlog
      by_contra hne
      exact hlog (h.alone hm hb ha hne)
    · rw [hm.other hbi]
      by_cases hai : a = i
      · subst hai; exact h.alone hm ha hb hlog
      · rw [hm.other hai] at hlog
        exact h.once a b v hab ha hb hlog
  ended j := by
    by_cases hj : j = i
    · subst hj; exact hm.ended (h.seqs.tx j) (h.ended j)
    · rw [hm.other hj]; exact (h.ended j).mono hm.events

theorem versions_step {s s' : Sys} {a : Act} (h : Versions calls s) (hok : KeepsVersions calls s a)
    (hs : step calls s a = some s') : Versions calls s' := by
  have hempty : ∀ call, Beside call [] := fun _ _ _ => .inl fun r hr => absurd hr List.not_mem_nil
  cases a with
  | next i =>
    have hm := next_moves hs
    refine h.moves hm fun j hj hf => ?_
    rcases hm.committing with hl | ⟨hl, -⟩
    · rw [hl]; exact hempty _
    · rw [hl]; exact hok j hj hf
  | abort i =>
    simp only [step] at hs
    split at hs
    · cases hs
    · rename_i ho
      cases hs
      refine h.moves (.leave (Bool.eq_false_iff.2 ho) trivial) fun j _ _ => ?_
      rw [show (s.finish i .aborted).tx i = .aborted from upd_self ..]
      exact hempty _

theorem versions_run {s : Sys} (h : Run (step calls) (KeepsVersions calls) {} s) : Versions calls s := by
  refine h.inv (Versions calls) ⟨.init, ?_, ?_, ?_, ?_, fun _ => trivial⟩ fun s a s' hi hok hs => versions_step hi hok hs
  · exact fun i key _ ⟨r, hr, _⟩ => absurd hr List.not_mem_nil
  · exact fun i v _ hf => absurd hf (by simp [Phase.inFlight])
  · exact fun i v _ hl => absurd rfl hl
  · exact fun i j v _ _ _ _ => rfl

/-- Two appends of one event that expect an empty ledger. -/
def expectEmpty (_ : Nat) : Call :=
  { one .SemanticAsserted [("predicate_code", .str "SPEAKS"), ("subject_ref", .str "e"), ("scope", .str "GLOBAL")] with
    expectedVersion := some 0 }

/-- Both check before either commits. -/
def bothCheck : List Act :=
  [.next 0, .next 0, .next 1, .next 1, .next 0, .next 0, .next 0, .next 0, .next 0, .next 1, .next 1, .next 1, .next 1,
    .next 1]

end Umd.Ledger
