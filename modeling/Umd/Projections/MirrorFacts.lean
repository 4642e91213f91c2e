import Umd.Storage.Commit
import Umd.Projections.EdgeAuthority
/-!
# The mirror and the edges

The mirror looks up the lock markers once for a batch, when Tier-0 has folded
all of it; the edges look at the lock before each event. So they hold the same
asserted facts in every run whose batches have, for each fact that is new, a
marker that says the same as the locks at its assertions (`mirror_agrees`).
-/

namespace Umd.Ledger

open Umd.Lib Umd.Events Umd.Reducer Umd.Projections

/-! ## What the mirror writes -/

/-- The assertion is written to the mirror as the fact, unless a user's row of it is there. -/
def Writes (state : Table) (pe : PreparedEvent) (id : Uuid) : Prop :=
  pe.eventType = .SemanticAsserted ∧ (pe.payload.get "predicate_code").truthy = true ∧
    subjectLocked state pe.payload = false ∧ assertionFactId pe.payload pe.eventVersion = id

theorem Mirror.find_upsert (m : Mirror) (row : AssertionRow) (id : Uuid) :
    ((m.upsert row).find id).isSome = true ↔ (m.find id).isSome = true ∨ row.id = id := by
  unfold Mirror.upsert Mirror.find
  simp only [List.find?_isSome, decide_eq_true_eq]
  split
  · rename_i hany
    obtain ⟨r₀, hr₀, hid₀⟩ := List.any_eq_true.1 hany
    constructor
    · rintro ⟨r, hr, rfl⟩
      obtain ⟨r', hr', rfl⟩ := List.mem_map.1 hr
      split
      · exact .inr rfl
      · exact .inl ⟨r', hr', rfl⟩
    · rintro (⟨r, hr, rfl⟩ | rfl)
      · refine ⟨_, List.mem_map_of_mem hr, ?_⟩
        split
        · exact Eq.symm ‹_›
        · rfl
      · refine ⟨_, List.mem_map_of_mem hr₀, ?_⟩
        rw [if_pos (by simpa using hid₀)]
  · simp only [List.mem_append, List.mem_singleton]
    constructor
    · rintro ⟨r, hr | rfl, rfl⟩
      · exact .inl ⟨r, hr, rfl⟩
      · exact .inr rfl
    · rintro (⟨r, hr, rfl⟩ | rfl)
      · exact ⟨r, .inl hr, rfl⟩
      · exact ⟨row, .inr rfl, rfl⟩

@[simp] theorem Mirror.find_seedPredicate (m : Mirror) (code : String) (id : Uuid) : (m.seedPredicate code).find id = m.find id := by
  unfold Mirror.seedPredicate
  split <;> rfl

theorem materializeOne_find (state : Table) (m : Mirror) (pe : PreparedEvent) (seq : Nat) (id : Uuid) :
    ((materializeOne state m pe seq).find id).isSome = true ↔ (m.find id).isSome = true ∨ Writes state pe id := by
  unfold materializeOne
  by_cases he : pe.eventType = .SemanticAsserted
  · cases hp : (pe.payload.get "predicate_code").truthy with
    | false => simp [he, Writes, hp]
    | true =>
      cases hl : subjectLocked state pe.payload with
      | true => simp [he, Writes, hl]
      | false =>
        simp only [he, ne_eq, not_true_eq_false, Bool.not_true, Bool.false_eq_true, if_false]
        split
        · -- the row of a user, which is there
          rename_i hkeep
          simp only [keepsOverride, Bool.and_eq_true] at hkeep
          have hthere : (m.find (AssertionRow.of pe seq).id).isSome = true := by
            obtain ⟨r, hr, -⟩ := (Option.any_eq_true _ _).1 hkeep.1
            rw [Mirror.find_seedPredicate] at hr
            rw [hr]; rfl
          rw [Mirror.find_seedPredicate]
          constructor
          · exact .inl
          · rintro (h | ⟨-, -, -, rfl⟩)
            · exact h
            · exact hthere
        · rw [Mirror.find_upsert, Mirror.find_seedPredicate]
          simp [Writes, he, hp, hl, AssertionRow.of]
  · simp [he, Writes]

theorem materializeAssertions_find (state : Table) {prepared : List PreparedEvent} (id : Uuid) :
    ∀ {seqs : List Nat} (m : Mirror), seqs.length = prepared.length →
      (((materializeAssertions state m prepared seqs).find id).isSome = true ↔
        (m.find id).isSome = true ∨ ∃ pe ∈ prepared, Writes state pe id) := by
  unfold materializeAssertions
  induction prepared with
  | nil => intro seqs m _; simp
  | cons pe prepared ih =>
    intro seqs m hlen
    obtain ⟨n, seqs, rfl⟩ := List.exists_cons_of_length_eq_add_one hlen
    rw [List.zip_cons_cons, List.foldl_cons, ih _ (by simpa using hlen), materializeOne_find]
    simp [or_assoc]

/-- A stored assertion has the version the edges take its id under. -/
theorem asserted_version {ev : SemanticEvent} {pe : PreparedEvent} (h : ev.prepare = .ok pe)
    (he : pe.eventType = .SemanticAsserted) : pe.eventVersion = 3 := by
  obtain ⟨v, s, hs, -, hty, hver, -⟩ := prepare_latest h
  rw [← hty, he] at hs
  rw [hver, ← hty, he]
  unfold loadSchema at hs
  split at hs
  all_goals first
    | cases hs; rfl
    | cases hs

/-- The mirror and the edges take one event for an assertion of one fact. -/
theorem writes_iff {ev : SemanticEvent} {pe : PreparedEvent} (h : ev.prepare = .ok pe) (state : Table) (n : Nat)
    (key : Option Uuid) (id : Uuid) :
    Writes state pe id ↔ States (upcast (.of pe n key)) id ∧ subjectLocked state pe.payload = false := by
  have hprep : Prepared (.of pe n key) := ⟨ev, pe, n, key, h, rfl⟩
  have hpay : (upcast (.of pe n key)).payload = pe.payload := hprep.payload
  have htype : (upcast (.of pe n key)).eventType = pe.eventType := rfl
  by_cases he : pe.eventType = .SemanticAsserted
  · have htext := edge_get hprep.accepted (by rw [htype, he]; decide) (k := "predicate_code") (by decide)
    have hcode : (pe.payload.get "predicate_code").truthy = true ↔
        ∃ pred, nonEmpty (textAt (upcast (.of pe n key)) "predicate_code") = some pred := by
      rw [← hpay, htext, truthy_ofStr, Option.isSome_iff_exists]
    unfold Writes States
    rw [htype, hpay, hcode, asserted_version h he]
    tauto
  · unfold Writes States
    rw [htype]
    exact ⟨fun hw => absurd hw.1 he, fun hw => absurd hw.1.1 he⟩

end Umd.Ledger

namespace Umd.Projections

open Umd.Lib Umd.Events Umd.Reducer Umd.Ledger

/-! ## What the edges have -/

/-- Rows that follow `pre` assert the fact, and its subject is not locked at the assertion. -/
def AssertsIn (id : Uuid) : List EventRow → List EventRow → Prop
  | _, [] => False
  | pre, row :: rows => Reasserts (lastIsLocked (logOf pre)) (upcast row) id ∨ AssertsIn id (pre ++ [row]) rows

theorem assertsIn_append (id : Uuid) (pre rows rows' : List EventRow) :
    AssertsIn id pre (rows ++ rows') ↔ AssertsIn id pre rows ∨ AssertsIn id (pre ++ rows) rows' := by
  induction rows generalizing pre with
  | nil => simp [AssertsIn]
  | cons row rows ih => simp [AssertsIn, ih, or_assoc, List.append_assoc]

/-- The edges have an asserted row of the fact, active or superseded. -/
def HasFact (t : EdgeTable) (id : Uuid) : Prop := ∃ r ∈ t, r.factId = id ∧ r.eventType = .SemanticAsserted

theorem Puts.eventType {locks : String → Bool} {ev : SemanticEvent} {row : EdgeRow} (h : Puts locks ev row) :
    row.eventType = ev.eventType := by
  cases h <;> rfl

theorem hasFact_snoc {rows : List EventRow} (hs : StoredRows rows) {row : EventRow} (ha : Accepted (upcast row)) (id : Uuid) :
    HasFact (edgesOf (rows ++ [row])) id ↔
      HasFact (edgesOf rows) id ∨ Reasserts (lastIsLocked (logOf rows)) (upcast row) id := by
  rw [edgesOf_snoc, changeOf_before]
  have asserted : (upcast row).eventType = .SemanticAsserted →
      (Reasserts (lastIsLocked (logOf rows)) (upcast row) id ↔
        ∃ p, (changeOf (lastIsLocked (logOf rows)) (upcast row)).puts = some p ∧ p.factId = id) :=
    fun he => reasserts_iff (by rw [he]; rfl)
  constructor
  · rintro ⟨r, hr, rfl, htype⟩
    rcases mem_on hr with hp | ⟨r₀, hr₀, rfl⟩
    · have he := (changeOf_puts hp).eventType
      exact .inr ((asserted (by rw [← he, htype])).2 ⟨r, hp, rfl⟩)
    · have hsame := touch_sameEdge (changeOf (lastIsLocked (logOf rows)) (upcast row)) row.seq r₀
      exact .inl ⟨r₀, hr₀, hsame.factId.symm, by rw [← hsame.eventType, htype]⟩
  · rintro (⟨r, hr, rfl, htype⟩ | hre)
    · have hfind := find_of_mem (edges_nodup rows) hr
      by_cases hput : ∃ p, (changeOf (lastIsLocked (logOf rows)) (upcast row)).puts = some p ∧ p.factId = r.factId
      · obtain ⟨p, hp, hid⟩ := hput
        -- what overwrites an asserted row is asserted
        have hover := (put_over hs hr ha (changeOf_puts hp) hid).2.2 htype
        exact ⟨p, (find_some (find_put hp)).1, hid, by rw [(changeOf_puts hp).eventType, hover]⟩
      · have hsame := touch_sameEdge (changeOf (lastIsLocked (logOf rows)) (upcast row)) row.seq r
        refine ⟨_, (@find_some _ r.factId _ ?_).1, hsame.factId, by rw [hsame.eventType, htype]⟩
        rw [find_touch fun p hp hid => hput ⟨p, hp, hid⟩, hfind]
        rfl
    · obtain ⟨p, hp, rfl⟩ := (asserted hre.1.1).1 hre
      exact ⟨p, (find_some (find_put hp)).1, rfl, by rw [(changeOf_puts hp).eventType, hre.1.1]⟩

/-- The asserted rows of the edges are the facts the log asserts of unlocked subjects. -/
theorem hasFact_iff {rows : List EventRow} (hs : StoredRows rows) (id : Uuid) :
    HasFact (edgesOf rows) id ↔ AssertsIn id [] rows := by
  induction rows using List.reverseRecOn with
  | nil => exact iff_of_false (by rintro ⟨r, hr, -⟩; cases hr) (fun h => h)
  | append_singleton rows row ih =>
    have hs' : StoredRows rows := fun r hr => hs r (List.mem_append_left _ hr)
    rw [hasFact_snoc hs' (hs row (by simp)), ih hs', assertsIn_append]
    simp [AssertsIn]

end Umd.Projections

namespace Umd.Ledger

open Umd.Lib Umd.Events Umd.Reducer Umd.Projections

/-! ## Runs of appends -/

variable {σ : Type}

/-- Calls of `append` one after another, with the mirror. -/
def Store.step (t : Store σ) (call : Call) : Option (Store σ) := some (t.append call).1

/-- The mirror has a row for a fact exactly when the edges built from the log have an asserted one. -/
def MirrorAgrees (t : Store σ) : Prop :=
  ∀ table, wiped t.ledger.events = .ok table → ∀ id, (t.mirror.find id).isSome = true ↔ HasFact table id

/-- Rows assert the fact, and the marker of its subject is not `LOCKED`. -/
def Unmarked (state : Table) (rows : List EventRow) (id : Uuid) : Prop :=
  ∃ row ∈ rows, States (upcast row) id ∧ subjectLocked state row.payload = false

/-- For each fact that is new to the mirror, the markers as the batch leaves them say the same of its assertions as the
locks before each of them, and a call that is cut short asserts none. -/
structure SameFacts (t : Store σ) (call : Call) : Prop where
  whole : ¬ Store.CutShort t call Store.noEffects → ∀ prepared state, prepareAll call.events = .ok prepared →
    applyTier0 t.ledger.state (call.events.map (·.event)) (List.range' t.ledger.nextSeq call.events.length) = .ok state →
    ∀ id, t.mirror.find id = none →
      (Unmarked state (rowsFrom call t.ledger.nextSeq (call.events.zip prepared)) id ↔
        AssertsIn id t.ledger.events (rowsFrom call t.ledger.nextSeq (call.events.zip prepared)))
  cut : Store.CutShort t call Store.noEffects → ∀ prepared, prepareAll call.events = .ok prepared → ∀ id, t.mirror.find id = none →
    ¬ AssertsIn id t.ledger.events (rowsFrom call t.ledger.nextSeq (call.untilRepeat (call.events.zip prepared)))

/-- The mirror has the facts the log asserts of unlocked subjects. -/
structure Mirrored (t : Store σ) : Prop where
  stored : Stored t.ledger
  facts : ∀ id, (t.mirror.find id).isSome = true ↔ AssertsIn id [] t.ledger.events

theorem Mirrored.agrees {t : Store σ} (h : Mirrored t) : MirrorAgrees t := by
  intro table ht id
  rw [h.facts, wiped_split h.stored (by simp : t.ledger.events = t.ledger.events ++ []) ht,
    hasFact_iff fun r hr => (h.stored.prepared r hr).accepted]

/-- What a whole batch writes to the mirror, by its rows. -/
theorem writes_rows {call : Call} {prepared : List PreparedEvent} (hp : prepareAll call.events = .ok prepared) (state : Table)
    (n : Nat) (id : Uuid) :
    (∃ pe ∈ prepared, Writes state pe id) ↔ Unmarked state (rowsFrom call n (call.events.zip prepared)) id := by
  have hlen := prepareAll_length hp
  have hwrites : ∀ pe ∈ prepared, ∀ n key, Writes state pe id ↔
      States (upcast (.of pe n key)) id ∧ subjectLocked state pe.payload = false := by
    intro pe hpe n key
    obtain ⟨ev, hev⟩ := prepareAll_mem hp pe hpe
    exact writes_iff hev state n key id
  -- row by row over the items
  have hitems : ∀ (items : List (EventObj × PreparedEvent)), (∀ item ∈ items, item.2 ∈ prepared) → ∀ n,
      (∃ item ∈ items, Writes state item.2 id) ↔ Unmarked state (rowsFrom call n items) id := by
    intro items
    induction items with
    | nil => intro _ n; simp [Unmarked, rowsFrom, rowsAt]
    | cons item items ih =>
      obtain ⟨ev, pe⟩ := item
      intro hmem n
      have ih' := ih (fun item hi => hmem item (List.mem_cons_of_mem _ hi)) (n + 1)
      unfold Unmarked at ih' ⊢
      rw [rowsFrom_cons]
      simp only [List.mem_cons, exists_eq_or_imp, ih', hwrites pe (hmem (ev, pe) (by simp)) n (insertKey call ev)]
      rfl
  rw [← hitems _ fun item hi => (List.of_mem_zip hi).2]
  constructor
  · rintro ⟨pe, hpe, hw⟩
    obtain ⟨i, hi, rfl⟩ := List.mem_iff_getElem.1 hpe
    have hi' : i < (call.events.zip prepared).length := by rw [List.length_zip]; omega
    exact ⟨(call.events.zip prepared)[i], List.getElem_mem hi', by rw [List.getElem_zip]; exact hw⟩
  · rintro ⟨item, hi, hw⟩
    exact ⟨item.2, (List.of_mem_zip hi).2, hw⟩

/-- A call whose batch says the same to both keeps them together. -/
theorem Mirrored.append {t : Store σ} (h : Mirrored t) {call : Call} (hsame : SameFacts t call) :
    Mirrored (t.append call).1 := by
  have hstored : Stored (t.append call).1.ledger := by
    have := h.stored.append call
    rwa [Store.append_ledger] at this
  refine ⟨hstored, fun id => ?_⟩
  have hnew : ∀ {written asserted : Prop}, (t.mirror.find id = none → (written ↔ asserted)) →
      ((t.mirror.find id).isSome = true ∨ written ↔ AssertsIn id [] t.ledger.events ∨ asserted) := by
    intro written asserted hw
    rw [← h.facts]
    cases hf : t.mirror.find id with
    | none => rw [hw hf]
    | some r => simp
  by_cases hcut : Store.CutShort t call Store.noEffects
  · have hcut' := hcut
    obtain ⟨hr, htail, ⟨prepared, hp⟩, -⟩ := hcut'
    obtain ⟨db', existing, hout, hrows, -⟩ := Store.append_cut hr htail hp
    rw [hout]
    dsimp only
    rw [hrows, assertsIn_append, List.nil_append, ← @hnew False _ fun hn =>
      iff_of_false not_false (hsame.cut hcut prepared hp id hn), or_false]
  · have hwhole := Store.append_whole hcut
    generalize t.append call = out at hwhole
    obtain ⟨t', e | result⟩ := out
    · rw [hwhole.mirror, hwhole.events]
      exact h.facts id
    · rcases hwhole with hk | ⟨prepared, seqs, hw⟩
      · rw [hk.mirror, hk.events]
        exact h.facts id
      · have hseqs := hw.each
        have hlen := prepareAll_length hw.valid
        have hrows : rowsAt call (call.events.zip prepared) seqs =
            rowsFrom call t.ledger.nextSeq (call.events.zip prepared) := by
          rw [rowsFrom, hseqs, zip_length hw.valid]
        rw [hw.mirror, hw.events, hrows, assertsIn_append, List.nil_append,
          materializeAssertions_find _ _ _ (by rw [hseqs, List.length_range', hlen]),
          writes_rows hw.valid _ t.ledger.nextSeq]
        exact hnew fun hn => hsame.whole hcut prepared _ hw.valid (hseqs ▸ hw.state) id hn

/-- **The mirror and the edges have the same asserted facts in every run whose
batches say the same to both of each new fact.** -/
theorem mirror_agrees {other : σ} {t : Store σ} (h : Run Store.step SameFacts { other := other } t) : MirrorAgrees t :=
  (h.inv Mirrored ⟨.empty, fun id => by simp [Mirror.find, AssertsIn]⟩
    fun _ _ _ hi hc hs => by cases hs; exact hi.append hc).agrees

/-- An assertion about an entity. -/
def asserted : SemanticEvent where
  eventType := .SemanticAsserted
  payload := [("predicate_code", .str "P"), ("subject_ref", .str "e"), ("scope", .str "GLOBAL")]

/-- An assertion and a lock of its subject after it, in one batch. -/
def assertThenLock : Call where
  events := [⟨0, asserted⟩, ⟨1, { eventType := .Locked, payload := [("entity_ref", .str "e")] }⟩]

theorem mirror_agrees_one : MirrorAgrees (Store.append ({ other := () } : Store Unit) { events := [⟨0, asserted⟩] }).1 := by
  refine mirror_agrees (.step (a := { events := [⟨0, asserted⟩] }) .refl ⟨fun _ prepared state hp ht id _ => ?_, ?_⟩ rfl)
  · cases hp
    cases ht
    constructor
    · rintro ⟨row, hr, hs, -⟩
      cases List.mem_singleton.1 hr
      exact .inl ⟨hs, "e", rfl, rfl⟩
    · rintro (⟨hs, -⟩ | hno)
      · exact ⟨_, List.mem_singleton_self _, hs, rfl⟩
      · cases hno
  · rintro ⟨⟨hkey, -⟩, -⟩
    exact absurd rfl hkey

/-- The edge is put, and the fact is not mirrored. -/
theorem asserted_then_locked : ¬ ∀ t : Store Unit, Run Store.step Any { other := () } t → MirrorAgrees t := by
  intro h
  have hagrees := h _ (.step (a := assertThenLock) .refl trivial rfl) _ rfl (assertionFactId asserted.payload 3)
  have hfact := hagrees.2 ⟨_, List.mem_cons_self, rfl, rfl⟩
  cases hfact

end Umd.Ledger
