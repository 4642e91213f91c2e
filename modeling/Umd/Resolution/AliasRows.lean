import Umd.Lib.Steps
import Umd.Resolution.Mapping
import Umd.Storage.ExpectedVersion
/-!
# The map rows of aliases

`Resolver.alias` of refs that read as UUIDs, in any history of appends and
resolutions. A repeated call finds its key in the log and its row in the map.
The row a call writes has the seq after the highest one of the log, read when
the event is already there: never that of the event (`alias_origin_iff`).
-/

namespace Umd.Resolution

open Umd.Lib Umd.Events Umd.Reducer Umd.Ledger

/-! ## Histories -/

/-- What is done to the tables: an append, or a call of the resolver. -/
inductive TablesAct where
  | append (call : Call)
  | resolve (c : Resolve)

def tablesStep (t : Tables) : TablesAct → Option Tables
  | .append call => some (t.append call).1
  | .resolve c => some (c.run t)

/-- The row of an alias and its canonical is in the map. -/
def InMap (rows : List MapRow) (aliasEntity : String) (aliasId canonicalId : UuidValue) : Prop :=
  ∃ row ∈ rows, row.entityId = aliasId ∧ row.aliasText = aliasEntity ∧ row.canonicalEntityId = canonicalId

/-- A row that was written has the seq of the event of the pair, and whatever happens then a repeated call adds nothing. -/
structure AliasKept (aliasEntity canonical : String) (t t' : Tables) : Prop where
  origin : ∀ row ∈ t'.other, row ∉ t.other →
    some row.originSeq = seqOfKey t'.ledger.events (aliasKey aliasEntity canonical)
  repeated : ∀ u, Run tablesStep Any t' u → ∀ reason,
    (resolverAlias u aliasEntity canonical reason).1.ledger.events = u.ledger.events ∧
      (resolverAlias u aliasEntity canonical reason).1.other = u.other

/-! ## One call -/

section
variable {aliasEntity canonical : String} {reason : Option String} {aliasId canonicalId : UuidValue}

/-- The fold of an alias does not raise. -/
theorem applyTier0_alias (t : Table) (n : Nat) : ∃ t', applyTier0 t [aliasEvent aliasEntity canonical reason] [n] = .ok t' := by
  have hid : identityEventTarget { aliasEvent aliasEntity canonical reason with seq := some n } = none :=
    resolved_identity (.inr rfl) (some n)
  have hreduce : ∀ s, ∃ s', reduce s { aliasEvent aliasEntity canonical reason with seq := some n } = .ok s' := by
    intro s
    unfold reduce
    rw [if_neg (by exact Bool.false_ne_true)]
    split
    · exact ⟨_, rfl⟩
    · split
      · exact ⟨_, rfl⟩
      · unfold reduceChange identityKey
        rw [hid]
        split <;> exact ⟨_, rfl⟩
  obtain ⟨s', hs'⟩ := hreduce (loadAffectedState t [aliasEvent aliasEntity canonical reason])
  have hfold : foldBatch t [aliasEvent aliasEntity canonical reason] [n] = .ok s' := by
    change reduceAll (loadAffectedState t [aliasEvent aliasEntity canonical reason]) [_] = _
    rw [reduceAll, hs']
    rfl
  rw [applyTier0_eq, hfold]
  exact ⟨_, rfl⟩

/-- The call under the key of the pair. -/
def aliasCall (aliasEntity canonical : String) (reason : Option String) : Call :=
  keyed (aliasEvent aliasEntity canonical reason) (aliasKey aliasEntity canonical)

/-- An alias is appended, or found, and never refused. -/
theorem alias_appended (db : Db) : ∃ result, (append db (aliasCall aliasEntity canonical reason)).2 = .ok result ∧
    ∃ n, seqOfKey (append db (aliasCall aliasEntity canonical reason)).1.events (aliasKey aliasEntity canonical) = some n := by
  obtain ⟨pe, hp⟩ : ∃ pe, (aliasEvent aliasEntity canonical reason).prepare = .ok pe := resolved_prepares rfl
  obtain ⟨state, hstate⟩ := @applyTier0_alias aliasEntity canonical reason db.state db.nextSeq
  have hok : ∃ result, (append db (aliasCall aliasEntity canonical reason)).2 = .ok result := by
    cases hk : seqOfKey db.events (aliasKey aliasEntity canonical) with
    | some n => exact ⟨⟨n, n⟩, by simp [append, aliasCall, keyed, hk]⟩
    | none =>
      have hkey : Ledger.insertKey (aliasCall aliasEntity canonical reason) ⟨0, aliasEvent aliasEntity canonical reason⟩ =
          some (aliasKey aliasEntity canonical) := by simp [Ledger.insertKey, aliasCall, keyed]
      unfold aliasCall keyed at hkey
      refine ⟨⟨db.nextSeq, db.nextSeq⟩, ?_⟩
      simp [append, aliasCall, keyed, hk, checkTail, prepareAll, hp, Except.map, insertAll, insertRow, hkey, hstate]
  obtain ⟨result, hr⟩ := hok
  refine ⟨result, hr, ?_⟩
  have hkeyed := append_keyed db (aliasEvent aliasEntity canonical reason) (aliasKey aliasEntity canonical)
  change AppendsOne db _ _ (append db (aliasCall aliasEntity canonical reason)) at hkeyed
  generalize append db (aliasCall aliasEntity canonical reason) = r at hkeyed hr ⊢
  cases hkeyed with
  | found h => exact ⟨_, h⟩
  | raised => cases hr
  | grown free prep h =>
    rw [h]
    exact seqOfKey_of_mem ⟨_, List.mem_append_right _ (List.mem_singleton.2 rfl), rfl⟩

/-- What a call leaves in the map: the rows, and that of the pair where it was not there. -/
theorem alias_rows (t : Tables) (ha : uuidRefOrNone aliasEntity = some aliasId) (hc : uuidRefOrNone canonical = some canonicalId) :
    (∃ n, seqOfKey (resolverAlias t aliasEntity canonical reason).1.ledger.events (aliasKey aliasEntity canonical) = some n) ∧
    (InMap t.other aliasEntity aliasId canonicalId → (resolverAlias t aliasEntity canonical reason).1.other = t.other) ∧
    (¬ InMap t.other aliasEntity aliasId canonicalId → (resolverAlias t aliasEntity canonical reason).1.other = t.other ++
      [⟨aliasId, aliasEntity, canonicalId, tailOf (resolverAlias t aliasEntity canonical reason).1.ledger.events + 1⟩]) := by
  obtain ⟨result, hok, n, hn⟩ := @alias_appended aliasEntity canonical reason t.ledger
  have hother := Store.append_other t (aliasCall aliasEntity canonical reason)
  rw [Store.append_ledger] at hok hn
  unfold resolverAlias
  rw [ha, hc]
  simp only [lift, Store.completeAndAppend]
  have hcall : t.append { events := [⟨0, aliasEvent aliasEntity canonical reason⟩]
                          idempotencyKey := some (aliasKey aliasEntity canonical) } =
      t.append (aliasCall aliasEntity canonical reason) := rfl
  rw [hcall]
  generalize t.append (aliasCall aliasEntity canonical reason) = r at hok hn hother ⊢
  obtain ⟨t', res⟩ := r
  cases hok
  dsimp only at hn hother ⊢
  have hmap : (t'.other.any fun r => r.entityId = aliasId && r.aliasText = aliasEntity && r.canonicalEntityId = canonicalId) = true ↔
      InMap t.other aliasEntity aliasId canonicalId := by
    rw [hother, List.any_eq_true]
    simp only [InMap, Bool.and_eq_true, decide_eq_true_eq, and_assoc]
  unfold recordAlias
  by_cases hm : InMap t.other aliasEntity aliasId canonicalId
  · rw [if_pos (hmap.2 hm)]
    exact ⟨⟨n, hn⟩, fun _ => hother, fun hnot => absurd hm hnot⟩
  · rw [if_neg (fun h => hm (hmap.1 h))]
    exact ⟨⟨n, hn⟩, fun h => absurd h hm, fun _ => by rw [hother]⟩

/-- A repeated call adds nothing. -/
theorem alias_repeated {t : Tables} (ha : uuidRefOrNone aliasEntity = some aliasId) (hc : uuidRefOrNone canonical = some canonicalId)
    {n : Nat} (hkey : seqOfKey t.ledger.events (aliasKey aliasEntity canonical) = some n)
    (hrow : InMap t.other aliasEntity aliasId canonicalId) :
    (resolverAlias t aliasEntity canonical reason).1.ledger.events = t.ledger.events ∧
      (resolverAlias t aliasEntity canonical reason).1.other = t.other := by
  refine ⟨?_, (alias_rows t ha hc).2.1 hrow⟩
  rw [alias_ledger]
  simp [append, hkey]

end

/-! ## What later calls keep -/

theorem tablesStep_events {t t' : Tables} {act : TablesAct} (h : tablesStep t act = some t') :
    ∃ new, t'.ledger.events = t.ledger.events ++ new := by
  cases act with
  | append call =>
    cases h
    obtain ⟨new, hnew, -⟩ := append_rows t.ledger call
    rw [Store.append_ledger] at hnew
    exact ⟨new, hnew⟩
  | resolve c =>
    cases h
    rcases run_ledger t c with he | ⟨call, he⟩
    · exact ⟨[], by rw [he, List.append_nil]⟩
    · obtain ⟨new, hnew, -⟩ := append_rows t.ledger call
      exact ⟨new, by rw [he, hnew]⟩

theorem completeAndAppend_other {t : Tables} {call : Call} {effects : Tables → Except PyError (List MapRow)}
    (heffects : ∀ t' rows, effects t' = .ok rows → ∃ new, rows = t'.other ++ new) :
    ∃ new, (t.completeAndAppend call effects).1.other = t.other ++ new := by
  unfold Store.completeAndAppend
  have hother := Store.append_other t { call with expectedVersion := none }
  generalize t.append { call with expectedVersion := none } = r at hother ⊢
  obtain ⟨t', e | result⟩ := r
  · exact ⟨[], by rw [List.append_nil]; exact hother⟩
  · dsimp only at hother ⊢
    cases he : effects t' with
    | error e => exact ⟨[], by rw [List.append_nil]; rfl⟩
    | ok rows =>
      obtain ⟨new, hnew⟩ := heffects t' rows he
      exact ⟨new, by rw [← hother]; exact hnew⟩

theorem tablesStep_other {t t' : Tables} {act : TablesAct} (h : tablesStep t act = some t') :
    ∃ new, t'.other = t.other ++ new := by
  cases act with
  | append call =>
    cases h
    exact ⟨[], by rw [Store.append_other, List.append_nil]⟩
  | resolve c =>
    cases h
    cases c with
    | merge target refs assignments reason =>
      refine ⟨[], ?_⟩
      rw [List.append_nil]
      simp only [Resolve.run, resolverMerge]
      split
      · rfl
      · exact Store.append_other t _
    | aliasTo aliasEntity canonical reason =>
      simp only [Resolve.run, resolverAlias]
      split
      · apply completeAndAppend_other
        intro t' rows hrows
        unfold recordAlias at hrows
        split at hrows
        · cases hrows
          exact ⟨[], by rw [List.append_nil]⟩
        · cases hrows
          exact ⟨_, rfl⟩
      · exact ⟨[], by rw [List.append_nil]; exact Store.append_other t _⟩

/-- What is in the log and in the map stays there. -/
theorem kept_run {t u : Tables} (h : Run tablesStep Any t u) {key : Uuid} {n : Nat} (hkey : seqOfKey t.ledger.events key = some n)
    {aliasEntity : String} {aliasId canonicalId : UuidValue} (hrow : InMap t.other aliasEntity aliasId canonicalId) :
    seqOfKey u.ledger.events key = some n ∧ InMap u.other aliasEntity aliasId canonicalId := by
  refine h.inv (fun u => seqOfKey u.ledger.events key = some n ∧ InMap u.other aliasEntity aliasId canonicalId) ⟨hkey, hrow⟩ ?_
  rintro u act u' ⟨hk, row, hr, hpair⟩ - hstep
  obtain ⟨events, hev⟩ := tablesStep_events hstep
  obtain ⟨rows, hrows⟩ := tablesStep_other hstep
  exact ⟨by rw [hev]; exact seqOfKey_append hk, row, by rw [hrows]; exact List.mem_append_left _ hr, hpair⟩

/-- A row that is written has the seq after the log's last, which is past that of the event. -/
theorem alias_late {t : Tables} {aliasEntity canonical : String} {reason : Option String} {aliasId canonicalId : UuidValue}
    (ha : uuidRefOrNone aliasEntity = some aliasId) (hc : uuidRefOrNone canonical = some canonicalId)
    (hm : ¬ InMap t.other aliasEntity aliasId canonicalId) :
    ¬ AliasKept aliasEntity canonical t (resolverAlias t aliasEntity canonical reason).1 := by
  intro hkept
  obtain ⟨⟨n, hn⟩, -, hnew⟩ := @alias_rows aliasEntity canonical reason aliasId canonicalId t ha hc
  have hmem : ⟨aliasId, aliasEntity, canonicalId, tailOf (resolverAlias t aliasEntity canonical reason).1.ledger.events + 1⟩ ∈
      (resolverAlias t aliasEntity canonical reason).1.other := by
    rw [hnew hm]
    exact List.mem_append_right _ (List.mem_singleton.2 rfl)
  have horigin := hkept.origin _ hmem fun hr => hm ⟨_, hr, rfl, rfl, rfl⟩
  rw [hn] at horigin
  obtain ⟨r, hr, hseq⟩ := Option.map_eq_some_iff.1 hn
  have hle := le_tailOf (List.mem_of_find?_eq_some hr)
  have hn' : _ + 1 = n := Option.some.inj horigin
  omega

/-- **An alias of UUID-shaped refs keeps its promise if and only if the map had the row before, so that it writes none.** -/
theorem alias_origin_iff (t : Tables) {aliasEntity canonical : String} (reason : Option String) {aliasId canonicalId : UuidValue}
    (ha : uuidRefOrNone aliasEntity = some aliasId) (hc : uuidRefOrNone canonical = some canonicalId) :
    AliasKept aliasEntity canonical t (resolverAlias t aliasEntity canonical reason).1 ↔
      InMap t.other aliasEntity aliasId canonicalId := by
  constructor
  · intro hkept
    by_contra hm
    exact alias_late ha hc hm hkept
  · intro hm
    obtain ⟨⟨n, hn⟩, hthere, -⟩ := @alias_rows aliasEntity canonical reason aliasId canonicalId t ha hc
    have hrows := hthere hm
    refine ⟨fun row hr hnot => absurd (hrows ▸ hr) hnot, fun u hu reason' => ?_⟩
    obtain ⟨hkey, hrow⟩ := kept_run hu hn (by rw [hrows]; exact hm)
    exact alias_repeated ha hc hkey hrow

/-- Two refs that read as UUIDs. -/
def annaId : String := "00000000000000000000000000000001"
def annaCanonical : String := "00000000000000000000000000000002"

theorem alias_origin_iff_anna : ∃ aliasId canonicalId, AliasKept annaId annaCanonical { other := [] }
    (resolverAlias { other := [] } annaId annaCanonical none).1 ↔ InMap [] annaId aliasId canonicalId := by
  obtain ⟨aliasId, ha⟩ := Option.isSome_iff_exists.1 (show (uuidRefOrNone annaId).isSome = true by decide +kernel)
  obtain ⟨canonicalId, hc⟩ := Option.isSome_iff_exists.1 (show (uuidRefOrNone annaCanonical).isSome = true by decide +kernel)
  exact ⟨aliasId, canonicalId, alias_origin_iff { other := [] } none ha hc⟩

/-- The first alias of all is recorded under the seq after its own. -/
theorem alias_written_late : ¬ ∀ (t : Tables) aliasEntity canonical reason,
    (uuidRefOrNone aliasEntity).isSome = true → (uuidRefOrNone canonical).isSome = true →
      AliasKept aliasEntity canonical t (resolverAlias t aliasEntity canonical reason).1 := by
  intro hall
  obtain ⟨aliasId, ha⟩ := Option.isSome_iff_exists.1 (show (uuidRefOrNone annaId).isSome = true by decide +kernel)
  obtain ⟨canonicalId, hc⟩ := Option.isSome_iff_exists.1 (show (uuidRefOrNone annaCanonical).isSome = true by decide +kernel)
  refine alias_late ha hc ?_ (hall { other := [] } annaId annaCanonical none (by rw [ha]; rfl) (by rw [hc]; rfl))
  rintro ⟨row, hr, -⟩
  cases hr

end Umd.Resolution
