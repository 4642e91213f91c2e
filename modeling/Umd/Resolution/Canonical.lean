import Umd.Lib.Chains
import Umd.Resolution.Resolver
import Umd.Storage.Tidy
/-!
# Canonical rows

Each call of the resolver writes the `CANONICAL_ENTITY` row of the entity its
event names. For an alias that is the ref that is aliased; for a merge it is
the target, with the first merged ref as its object: the row points the other
way, and the merged refs get none.
-/

namespace Umd.Resolution

open Umd.Lib Umd.Events Umd.Reducer Umd.Ledger

/-! ## The event -/

/-- The kinds the schema knows. -/
def kinds : List String := ["MERGE", "SPLIT", "ALIAS", "ESTABLISH", "UPDATE"]

section
variable {kind entity : String} {target : Option String} {refs : List String} {assignments : Dict} {reason : Option String}

theorem resolved_props (hk : kinds.contains kind = true) :
    Schema.validProps (resolvedProps kinds ++ resolvedMetadata)
      (resolvedEvent kind entity target refs assignments reason).payload = true := by
  have hstr : ∀ o : Option String, Schema.valid str? (Json.ofStr? o) = true := by
    intro o
    cases o <;> rfl
  have hrefs : Schema.valid .strings (.arr (refs.map .str)) = true := by
    simp [Schema.strings, Schema.valid, List.all_map]
  change (Schema.valid (.enum kinds) (.str kind) && (true && (Schema.valid str? (Json.ofStr? target) &&
    (Schema.valid .strings (.arr (refs.map .str)) && (true && (Schema.valid str? (Json.ofStr? reason) && true)))))) = true
  rw [hstr, hstr, hrefs]
  simp only [Schema.valid, hk]
  rfl

theorem resolved_valid (hk : kinds.contains kind = true) :
    validatePayload .EntityResolved 2 (resolvedEvent kind entity target refs assignments reason).payload = .ok () := by
  refine if_pos ?_
  rw [Schema.valid]
  change (_ && Schema.validProps (resolvedProps kinds ++ resolvedMetadata) _ && _) = true
  rw [resolved_props hk]
  rfl

/-- The event of a resolution is valid. -/
theorem resolved_prepares (hk : kinds.contains kind = true) :
    ∃ pe, (resolvedEvent kind entity target refs assignments reason).prepare = .ok pe := by
  have hprepare : (resolvedEvent kind entity target refs assignments reason).prepare =
      (validatePayload .EntityResolved 2 (resolvedEvent kind entity target refs assignments reason).payload).bind fun _ =>
      (validatePayload .EntityResolved 2 (resolvedEvent kind entity target refs assignments reason).payload).bind fun _ =>
        .ok _ := rfl
  rw [hprepare, resolved_valid hk]
  exact ⟨_, rfl⟩

theorem resolved_entity (seq : Option Nat) :
    entityRefOf { resolvedEvent kind entity target refs assignments reason with seq := seq } =
      if entity = "" then none else some entity := by
  by_cases he : entity = "" <;> simp [entityRefOf, firstRef, resolvedEvent, Dict.get, Dict.get?, Json.truthy, pyStr, he]

theorem resolved_target (seq : Option Nat) :
    changeTarget { resolvedEvent kind entity target refs assignments reason with seq := seq } =
      if entity = "" then none else some (entity, "CANONICAL_ENTITY") := by
  have hent := @resolved_entity kind entity target refs assignments reason seq
  unfold changeTarget eventTarget
  rw [hent]
  by_cases he : entity = ""
  · rw [if_pos he, if_pos he]
    rfl
  · rw [if_neg he, if_neg he]
    rfl

/-- Neither a merge nor an alias establishes an identity. -/
theorem resolved_identity (hk : kind = "MERGE" ∨ kind = "ALIAS") (seq : Option Nat) :
    identityEventTarget { resolvedEvent kind entity target refs assignments reason with seq := seq } = none := by
  have href : identityRef { resolvedEvent kind entity target refs assignments reason with seq := seq } = .null := by
    rcases hk with rfl | rfl <;> rfl
  unfold identityEventTarget
  rw [href]
  rfl

end

/-! ## The row -/

/-- The key of the row that maps an entity. -/
def canonicalKey (entity : String) : Key := (entity, "CANONICAL_ENTITY")

/-- The entity is not locked, and its canonical row is neither pinned nor the user's. -/
structure Free (t : Table) (entity : String) : Prop where
  unlocked : t.isLocked entity = false
  row : ∀ r, t (canonicalKey entity) = some r → r.state.isStr "LOCKED" = false ∧ r.authority.isStr userOverride = false

/-- The canonical row of an entity names another one. -/
def Names (t : Table) (entity object : String) : Prop := ∃ r, t (canonicalKey entity) = some r ∧ r.objectRef = some object

/-- What a resolution writes: the row of its entity, at the event's seq. -/
structure Written (object : String) (n : Nat) (r : ScalarRow) : Prop where
  object : r.objectRef = some object
  seq : r.seq = n
  pinned : r.state.isStr "LOCKED" = false
  user : r.authority.isStr userOverride = false

/-- The object a resolution names: its target, or its entity where the target is empty. -/
def objectOf (entity : String) (target : Option String) : String := (target.filter (· ≠ "")).getD entity

theorem objectOf_some {entity s : String} (h : s ≠ "") : objectOf entity (some s) = s := by
  simp [objectOf, Option.filter_some, h]

theorem objectOf_empty (entity : String) : objectOf entity (some "") = entity := rfl

section
variable {kind entity : String} {target : Option String} {refs : List String} {assignments : Dict} {reason : Option String}

theorem resolvedAssertion_object (hne : entity ≠ "") (n : Nat) :
    (resolvedAssertion { resolvedEvent kind entity target refs assignments reason with seq := some n } n).payload.get "object_ref" =
      .str (objectOf entity target) := by
  have hobj : (resolvedAssertion { resolvedEvent kind entity target refs assignments reason with seq := some n } n).payload.get
      "object_ref" = if (pyOr (Json.ofStr? target) (.str entity)).truthy then
        .str (pyStr (pyOr (Json.ofStr? target) (.str entity))) else .null := rfl
  rw [hobj]
  cases target with
  | none => simp [pyOr, Json.ofStr?, Json.truthy, hne, pyStr, objectOf]
  | some s => by_cases hs : s = "" <;> simp [pyOr, Json.ofStr?, Json.truthy, hne, hs, pyStr, objectOf, Option.filter_some]

theorem objectOf_ne (hne : entity ≠ "") : objectOf entity target ≠ "" := by
  cases target with
  | none => simpa [objectOf] using hne
  | some s => by_cases hs : s = "" <;> simp [objectOf, Option.filter_some, hs, hne]

/-- The row a resolution folds into takes the resolution, whatever it was before. -/
theorem change_written (hk : kind = "MERGE" ∨ kind = "ALIAS") (hne : entity ≠ "") {r : ScalarRow}
    (hkey : (r.entityRef, r.predicate) = canonicalKey entity) {n : Nat} (hlt : r.seq < n)
    (hauth : r.authority.isStr userOverride = false) :
    Written (objectOf entity target) n
      (Table.change r { resolvedEvent kind entity target refs assignments reason with seq := some n }) := by
  let ev : SemanticEvent := { resolvedEvent kind entity target refs assignments reason with seq := some n }
  have htarget : eventTarget ev = some (CurrentStateRow.ofScalar r).key := by
    have ht := @resolved_target kind entity target refs assignments reason (some n)
    rw [if_neg hne] at ht
    rw [(changeTarget_eq ht).1]
    exact congrArg some hkey.symm
  have hout : outranked (.ofScalar r) ev n = false := by
    have hauth' : (CurrentStateRow.ofScalar r).authority.isStr userOverride = false := hauth
    have hseq : (CurrentStateRow.ofScalar r).seq = r.seq := rfl
    simp only [outranked, hauth', hseq, Bool.false_and, Bool.false_or, Bool.or_eq_false_iff, decide_eq_false_iff_not,
      beq_eq_false_iff_ne]
    omega
  have hrow : reduceCurrentState (.ofScalar r) ev =
      assertion { CurrentStateRow.ofScalar r with authority := .null } (resolvedAssertion ev n) n := by
    have hce : EventType.EntityResolved ∈ changeEvents := by decide
    rw [reduceCurrentState_applies hce htarget rfl]
    have hseq : seqOn (.ofScalar r) ev = n := rfl
    rw [applyChange, hseq, hout]
    rfl
  have hobj : (resolvedAssertion ev n).payload.get "object_ref" = .str (objectOf entity target) := resolvedAssertion_object hne n
  have hstate : (resolvedAssertion ev n).payload.get "state" = .str "CONFIRMED" ∨
      (resolvedAssertion ev n).payload.get "state" = .str "PROBABLE" := by
    rcases hk with rfl | rfl
    · exact .inr rfl
    · exact .inl rfl
  unfold Table.change
  rw [hrow]
  refine ⟨?_, rfl, ?_, rfl⟩
  · change orRef (pyOr ((resolvedAssertion ev n).payload.get "object_ref") _) = _
    rw [hobj]
    simp [pyOr, Json.truthy, objectOf_ne hne, orRef, pyStr]
  · change (pyOr ((resolvedAssertion ev n).payload.get "state") _).isStr "LOCKED" = false
    rcases hstate with h | h <;> rw [h] <;> rfl

/-- A resolution of a free entity on the table: its canonical row is written and nothing else. -/
theorem reduce_resolved (hk : kind = "MERGE" ∨ kind = "ALIAS") (hne : entity ≠ "") {t : Table} (hkeyed : t.Keyed) {n : Nat}
    (hn : 0 < n) (hb : t.Below n) (hfree : Free t entity) :
    ∃ r, Written (objectOf entity target) n r ∧
      t.reduce { resolvedEvent kind entity target refs assignments reason with seq := some n } =
        some (upd t (canonicalKey entity) (some r)) := by
  let ev : SemanticEvent := { resolvedEvent kind entity target refs assignments reason with seq := some n }
  have hauth : (t.rowOrSeed (canonicalKey entity)).authority.isStr userOverride = false := by
    unfold Table.rowOrSeed
    cases hr : t (canonicalKey entity) with
    | none => rfl
    | some r => exact (hfree.row r hr).2
  refine ⟨Table.change (t.rowOrSeed (canonicalKey entity)) ev,
    change_written hk hne (hkeyed.rowOrSeed _) (hb.rowOrSeed hn _) hauth, ?_⟩
  have htarget : changeTarget ev = some (canonicalKey entity) := by
    have ht := @resolved_target kind entity target refs assignments reason (some n)
    rw [if_neg hne] at ht
    exact ht
  have hid : t.identityKey ev = none := by
    rw [Table.identityKey, resolved_identity hk]
    rfl
  have hl : isLockEvent ev.eventType = false := rfl
  change t.reduce ev = _
  simp only [Table.reduce, hl, Bool.false_eq_true, if_false, htarget, Table.reduceChange, hid]
  rw [if_neg (by rw [canonicalKey, hfree.unlocked]; exact Bool.false_ne_true)]

end

theorem store_canonical (t : Table) (entity : String) (r : ScalarRow) :
    store t (upd t (canonicalKey entity) (some r)) = upd t (canonicalKey entity) (some r) := by
  funext k
  unfold store
  by_cases hk : k = canonicalKey entity
  · subst hk
    rw [upd_self]
    have hne : ((canonicalKey entity).2 = lockPredicate) = False := by simp [canonicalKey, lockPredicate]
    simp [hne]
  · rw [upd_ne _ _ hk]
    cases t k with
    | none => rfl
    | some r' => simp

/-! ## One append -/

/-- A valid event under a fresh key: its fold is stored. -/
theorem append_state {db : Db} (h : Tidy db) {ev : SemanticEvent} {pe : PreparedEvent} (hp : ev.prepare = .ok pe)
    {key : Option Uuid} (hfresh : key.bind (seqOfKey db.events) = none) (hst : NoStaleLock db.state [ev]) {t : Table}
    (ht : db.state.reduceAll (semanticWithSeqs [ev] [db.nextSeq]) = some t) :
    (append db { events := [⟨0, ev⟩], idempotencyKey := key }).1.state = store db.state t := by
  have hprep : prepareAll [⟨0, ev⟩] = .ok [pe] := by simp [prepareAll, hp, Except.map]
  have hw : ∀ e ∈ [ev], WellTargeted e := fun e he => by
    rw [List.mem_singleton] at he
    rw [he]
    exact (prepareAll_accepted hprep ev (by simp)).wellTargeted
  have hspec := applyTier0_spec [db.nextSeq] h.keyed hw hst
  rw [ht] at hspec
  cases htier : applyTier0 db.state [ev] [db.nextSeq] with
  | error e => rw [htier] at hspec; cases hspec
  | ok state =>
    rw [htier] at hspec
    have hstate : state = store db.state t := Option.some.inj hspec
    have hkey : Ledger.insertKey { events := [⟨0, ev⟩], idempotencyKey := key } ⟨0, ev⟩ = key := by simp [Ledger.insertKey]
    unfold append
    simp [hfresh, checkTail, hprep, insertAll, insertRow, hkey, htier, hstate]

section
variable {kind entity : String} {target : Option String} {refs : List String} {assignments : Dict} {reason : Option String}

theorem noStaleLock_resolved (hk : kind = "MERGE" ∨ kind = "ALIAS") {t : Table} (hfree : Free t entity) :
    NoStaleLock t [resolvedEvent kind entity target refs assignments reason] := by
  intro k hkey r hr hlocked
  have hevs : [resolvedEvent kind entity target refs assignments reason].filter (·.isSemantic) =
      [resolvedEvent kind entity target refs assignments reason] := rfl
  rw [hevs, mem_loadedKeys] at hkey
  have htarget := @resolved_target kind entity target refs assignments reason none
  have hident := @resolved_identity kind entity target refs assignments reason hk none
  rcases hkey with ⟨ev, -, ref, -, rfl⟩ | ⟨ev, hev, hc | hi⟩
  · simp [Table.isLocked, hr, hlocked]
  · rw [List.mem_singleton] at hev
    subst hev
    by_cases hne : entity = ""
    · rw [if_pos hne] at htarget
      exact absurd (htarget.symm.trans hc) (by simp)
    · rw [if_neg hne] at htarget
      have hkk : canonicalKey entity = k := Option.some.inj (htarget.symm.trans hc)
      rw [← hkk] at hr
      rw [(hfree.row r hr).1] at hlocked
      cases hlocked
  · rw [List.mem_singleton] at hev
    subst hev
    exact absurd (hident.symm.trans hi) (by simp)

/-- Appended under a fresh key, a resolution of a named entity writes the row of that entity. -/
theorem append_resolved (hk : kind = "MERGE" ∨ kind = "ALIAS") (hne : entity ≠ "") {db : Db} (h : Tidy db)
    (hfree : Free db.state entity) {key : Option Uuid} (hfresh : key.bind (seqOfKey db.events) = none) :
    ∃ r, Written (objectOf entity target) db.nextSeq r ∧
      (append db { events := [⟨0, resolvedEvent kind entity target refs assignments reason⟩], idempotencyKey := key }).1.state =
        upd db.state (canonicalKey entity) (some r) := by
  obtain ⟨pe, hp⟩ := @resolved_prepares kind entity target refs assignments reason (by rcases hk with rfl | rfl <;> rfl)
  obtain ⟨r, hr, hred⟩ := @reduce_resolved kind entity target refs assignments reason hk hne db.state h.keyed db.nextSeq
    h.stored.start h.below hfree
  refine ⟨r, hr, ?_⟩
  rw [append_state h hp hfresh (noStaleLock_resolved hk hfree)
    (t := upd db.state (canonicalKey entity) (some r)), store_canonical]
  exact (Option.bind_eq_some_iff.2 ⟨_, hred, rfl⟩)

/-- A resolution of no entity writes no row. -/
theorem append_unnamed (hk : kind = "MERGE" ∨ kind = "ALIAS") (he : entity = "") {db : Db} (h : Tidy db)
    (hfree : Free db.state entity) (key : Option Uuid) :
    (append db { events := [⟨0, resolvedEvent kind entity target refs assignments reason⟩], idempotencyKey := key }).1.state =
      db.state := by
  cases hfresh : key.bind (seqOfKey db.events) with
  | some n => simp [append, hfresh]
  | none =>
    obtain ⟨pe, hp⟩ := @resolved_prepares kind entity target refs assignments reason (by rcases hk with rfl | rfl <;> rfl)
    have htarget := @resolved_target kind entity target refs assignments reason (some db.nextSeq)
    rw [if_pos he] at htarget
    have hred : db.state.reduce { resolvedEvent kind entity target refs assignments reason with seq := some db.nextSeq } =
        some db.state := by
      have hl : isLockEvent (resolvedEvent kind entity target refs assignments reason).eventType = false := rfl
      simp only [Table.reduce, hl, Bool.false_eq_true, if_false, htarget]
    rw [append_state h hp hfresh (noStaleLock_resolved hk hfree) (t := db.state)]
    · funext k
      unfold store
      cases db.state k <;> simp
    · exact (Option.bind_eq_some_iff.2 ⟨_, hred, rfl⟩)

end

end Umd.Resolution
