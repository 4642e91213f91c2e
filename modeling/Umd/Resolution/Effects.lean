import Umd.Resolution.Application
/-!
# The effects of a batch

What a command of a cluster does where its key is free: an establishment writes the two
rows of its canonical, a mention its event, an alias the canonical row of the mention. A
batch that is applied leaves what the last of its appended commands made (`applyCommands_ok`).
-/

namespace Umd.Resolution

open Umd.Lib Umd.Events Umd.Reducer Umd.Ledger Umd.Projections

/-! ## One append -/

/-- What an append that is not found leaves. -/
theorem append_fresh {db : Db} {ev : SemanticEvent} {key : Uuid} {result : CommitResult} (hfree : seqOfKey db.events key = none)
    (hok : (append db (keyed ev key)).2 = .ok result) : ∃ pe state, ev.prepare = .ok pe ∧
      applyTier0 db.state [ev] [db.nextSeq] = .ok state ∧
      (append db (keyed ev key)).1 = ⟨db.events ++ [.of pe db.nextSeq (some key)], state, db.nextSeq + 1⟩ := by
  have hkey : Ledger.insertKey (keyed ev key) ⟨0, ev⟩ = some key := by simp [Ledger.insertKey, keyed]
  unfold keyed at hkey
  unfold append at hok ⊢
  simp only [keyed, List.isEmpty_cons, Bool.false_eq_true, if_false, Option.bind_some, hfree, checkTail, prepareAll] at hok ⊢
  cases hp : ev.prepare with
  | error e => rw [hp] at hok; cases e <;> cases hok
  | ok pe =>
    rw [hp] at hok
    simp only [Except.map, List.zip_cons_cons, List.zip_nil_right, insertAll, insertRow, hkey, Option.bind_some, hfree, List.map_cons,
      List.map_nil] at hok ⊢
    cases htier : applyTier0 db.state [ev] [db.nextSeq] with
    | error e => rw [htier] at hok; cases hok
    | ok state => exact ⟨pe, state, rfl, rfl, rfl⟩

theorem append_found {db : Db} {ev : SemanticEvent} {key : Uuid} {n : Nat} (h : seqOfKey db.events key = some n) :
    append db (keyed ev key) = (db, .ok ⟨n, n⟩) := by
  simp [append, keyed, h]

/-- The rows that are loaded are stored as they were. -/
theorem persistDelta_loaded {t : Table} {evs : List SemanticEvent} {s : CurrentReducedState} {k : Key}
    (h : s.rows k = (loadAffectedState t evs).rows k) : persistDelta t s k = t k := by
  unfold persistDelta
  rw [h]
  simp only [loadAffectedState]
  by_cases hk : k ∈ loadedKeys evs
  · rw [if_pos hk]
    cases hr : t k with
    | none => rfl
    | some r =>
      simp only [Option.map_some]
      split
      · rfl
      · rfl
  · rw [if_neg hk]

/-- An event leaves the rows that it does not write. -/
theorem tier0_frame {t t' : Table} {ev : SemanticEvent} {n : Nat} (hl : isLockEvent ev.eventType = false)
    (h : applyTier0 t [ev] [n] = .ok t') {k : Key} (hk : k ∉ writes ev) : t' k = t k := by
  rw [applyTier0_eq] at h
  obtain ⟨s, hs, rfl⟩ := map_eq_ok.1 h
  refine @persistDelta_loaded _ ([ev].filter (·.isSemantic)) _ _ ?_
  unfold foldBatch at hs
  by_cases hsem : ev.isSemantic = true
  · have hevs : semanticWithSeqs [ev] [n] = [{ ev with seq := some n }] := by simp [semanticWithSeqs, hsem]
    rw [hevs] at hs
    obtain ⟨s', hs', hlast⟩ := bind_ok hs
    cases hlast
    rcases (@reduce_change _ _ { ev with seq := some n } hl hs').2 k with heq | ⟨hin, -⟩
    · exact heq
    · exact absurd hin hk
  · have hevs : semanticWithSeqs [ev] [n] = [] := by simp [semanticWithSeqs, hsem]
    rw [hevs] at hs
    cases hs
    rfl

/-! ## The event of an establishment -/

section
variable (float : ℚ → Number)

/-- The event of a command. -/
def EstablishMetadata.event (m : EstablishMetadata) (canonical reason : String) : SemanticEvent where
  eventType := .EntityResolved
  authority := some "machine"
  confidence := some (float m.confidence).toFloat
  generatedBy := m.generatedBy
  payload :=
    [("kind", .str "ESTABLISH"), ("entity_id", .str canonical), ("target_entity_id", .str canonical),
     ("refs", if m.supportRefs = [] then texts [canonical] else texts m.supportRefs), ("assignments", .obj [(canonical, .str canonical)]),
     ("reason", .str (reasonOr (some (reasonOr (some reason) "entity resolution")) "canonical establishment")), ("quarantined_refs", .arr []),
     ("canonical_type", Json.ofStr? m.canonicalType), ("display_label", .str m.displayLabel), ("aliases", texts m.aliases),
     ("support_refs", texts m.supportRefs), ("memberships", .obj m.memberships.dict), ("state", .str m.state),
     ("classification", .str m.classification), ("confidence", .num (float m.confidence)),
     ("membership_tuples", .arr (m.memberships.tuples.map fun t => .arr [.str t.1, Json.ofStr? t.2.1, Json.ofStr? t.2.2]))]

variable {float} {m : EstablishMetadata} {canonical reason : String}

theorem establishEvent_eq : establishEvent canonical (m.establishment float reason) = .ok (m.event float canonical reason) := by
  have hrefs : pyList (pyOr (texts m.supportRefs) (.arr [.str canonical])) =
      .ok (if m.supportRefs = [] then [.str canonical] else m.supportRefs.map .str) := by
    cases h : m.supportRefs with
    | nil => rfl
    | cons x xs => simp [pyOr, texts, Json.truthy, pyList]
  have haliases : pyList (texts m.aliases) = .ok (m.aliases.map .str) := pyList_arr _
  have hsupport : pyList (texts m.supportRefs) = .ok (m.supportRefs.map .str) := pyList_arr _
  have hgen : eventGeneratedBy (.obj m.generatedBy) = .ok m.generatedBy := by
    unfold eventGeneratedBy
    cases m.generatedBy with
    | nil => rfl
    | cons x xs => rfl
  show (pyList (pyOr (texts m.supportRefs) (.arr [.str canonical])) >>= fun refs => pyList (texts m.aliases) >>= fun aliases =>
    pyList (texts m.supportRefs) >>= fun supportRefs => (.ok (some (float m.confidence).toFloat) : Except PyError _) >>= fun confidence =>
    eventGeneratedBy (.obj m.generatedBy) >>= fun generatedBy => _) = _
  rw [hrefs, haliases, hsupport, hgen]
  refine congrArg Except.ok ?_
  unfold EstablishMetadata.event
  congr 1
  by_cases h : m.supportRefs = []
  · simp only [h, if_true]
    rfl
  · simp only [h, if_false]
    rfl

end

/-! ## The rows of an establishment -/

/-- Nothing is locked, and no canonical or identity row is pinned or the user's. -/
structure Unpinned (t : Table) : Prop where
  unlocked : ∀ e, t.isLocked e = false
  rows : ∀ k r, k.2 = "CANONICAL_ENTITY" ∨ k.2 = canonicalIdentity → t k = some r →
    r.state.isStr "LOCKED" = false ∧ r.authority.isStr userOverride = false

theorem Unpinned.free {t : Table} (h : Unpinned t) (e : String) : Free t e := ⟨h.unlocked e, fun r hr => h.rows _ r (.inl rfl) hr⟩

theorem Unpinned.seed {t : Table} (h : Unpinned t) {k : Key} (hk : k.2 = "CANONICAL_ENTITY" ∨ k.2 = canonicalIdentity) :
    (t.rowOrSeed k).authority.isStr userOverride = false := by
  unfold Table.rowOrSeed
  cases hr : t k with
  | none => rfl
  | some r => exact (h.rows k r hk hr).2

/-- The key of the identity row of a canonical. -/
def identityOfKey (canonical : String) : Key := (canonical, canonicalIdentity)

section
variable {float : ℚ → Number} {m : EstablishMetadata} {canonical reason : String} {n : Nat}

theorem event_target (hne : canonical ≠ "") : changeTarget { m.event float canonical reason with seq := some n } = some (canonicalKey canonical) := by
  have hent : entityRefOf { m.event float canonical reason with seq := some n } = some canonical := by
    simp [entityRefOf, firstRef, EstablishMetadata.event, Dict.get, Dict.get?, Json.truthy, pyStr, hne]
  unfold changeTarget eventTarget
  rw [hent]
  rfl

theorem event_identity (hne : canonical ≠ "") :
    identityEventTarget { m.event float canonical reason with seq := some n } = some (identityOfKey canonical) := by
  have href : identityRef { m.event float canonical reason with seq := some n } = .str canonical := rfl
  unfold identityEventTarget
  rw [href, if_pos (by simp [Json.truthy, hne])]
  rfl

/-- The canonical row of an establishment names the canonical. -/
theorem event_written (hne : canonical ≠ "") (hstate : m.state = "CONFIRMED" ∨ m.state = "PROBABLE") {r : ScalarRow}
    (hkey : (r.entityRef, r.predicate) = canonicalKey canonical) (hlt : r.seq < n) (hauth : r.authority.isStr userOverride = false) :
    Written canonical n (Table.change r { m.event float canonical reason with seq := some n }) := by
  let ev : SemanticEvent := { m.event float canonical reason with seq := some n }
  have htarget : eventTarget ev = some (CurrentStateRow.ofScalar r).key := by
    rw [(changeTarget_eq (event_target hne)).1]
    exact congrArg some hkey.symm
  have hout : outranked (.ofScalar r) ev n = false := by
    have hauth' : (CurrentStateRow.ofScalar r).authority.isStr userOverride = false := hauth
    have hseq : (CurrentStateRow.ofScalar r).seq = r.seq := rfl
    simp only [outranked, hauth', hseq, Bool.false_and, Bool.false_or, Bool.or_eq_false_iff, decide_eq_false_iff_not,
      beq_eq_false_iff_ne]
    omega
  have hrow : reduceCurrentState (.ofScalar r) ev =
      assertion { CurrentStateRow.ofScalar r with authority := .null } (resolvedAssertion ev n) n := by
    have hce : EventType.EntityResolved ∈ changeEvents := by decide
    rw [reduceCurrentState_applies hce htarget rfl]
    have hseq : seqOn (.ofScalar r) ev = n := rfl
    rw [applyChange, hseq, hout]
    rfl
  have hobj : (resolvedAssertion ev n).payload.get "object_ref" = .str canonical := by
    have hget : (resolvedAssertion ev n).payload.get "object_ref" =
        if (pyOr (Json.str canonical) (Json.str canonical)).truthy then .str (pyStr (pyOr (Json.str canonical) (Json.str canonical))) else .null := rfl
    rw [hget]
    simp [pyOr, Json.truthy, hne, pyStr]
  have hst : (resolvedAssertion ev n).payload.get "state" = .str m.state := by
    have hget : (resolvedAssertion ev n).payload.get "state" = pyOr (.str m.state) (.str "CONFIRMED") := rfl
    rw [hget]
    rcases hstate with h | h <;> rw [h] <;> rfl
  unfold Table.change
  rw [hrow]
  refine ⟨?_, rfl, ?_, rfl⟩
  · change orRef (pyOr ((resolvedAssertion ev n).payload.get "object_ref") _) = _
    rw [hobj]
    simp [pyOr, Json.truthy, hne, orRef, pyStr]
  · change (pyOr ((resolvedAssertion ev n).payload.get "state") _).isStr "LOCKED" = false
    rw [hst]
    rcases hstate with h | h <;> rw [h] <;> rfl

/-- What an establishment leaves in the identity row. -/
structure Established (m : EstablishMetadata) (n : Nat) (r : ScalarRow) : Prop where
  metadata : ∃ d : Dict, r.objectRef = some (dumps (.obj d)) ∧ d.keys.Nodup ∧ d.get "support_refs" = texts m.supportRefs
  state : r.state = .str m.state
  seq : r.seq = n
  authority : r.authority = .str "machine"

/-- The metadata of an identity with these memberships. -/
def EstablishMetadata.identity (float : ℚ → Number) (m : EstablishMetadata) (memberships : Dict) : Dict :=
  [("canonical_type", Json.ofStr? m.canonicalType), ("display_label", .str m.displayLabel), ("aliases", texts m.aliases),
    ("support_refs", texts m.supportRefs), ("memberships", .obj memberships), ("state", pyOr (.str m.state) (.str "CONFIRMED")),
    ("confidence", .num (float m.confidence)), ("classification", .str m.classification), ("generated_by", .obj m.generatedBy),
    ("created_by", .null), ("derived_from", .arr []), ("correspondence", .arr [])]

theorem identity_keys (memberships : Dict) : (m.identity float memberships).keys.Nodup := by simp [EstablishMetadata.identity, Dict.keys]

theorem identity_set (memberships u : Dict) : (m.identity float memberships).set "memberships" (.obj u) = m.identity float u := by
  simp [EstablishMetadata.identity, Dict.set]

theorem identity_support (memberships : Dict) : (m.identity float memberships).get "support_refs" = texts m.supportRefs := by
  simp [EstablishMetadata.identity, Dict.get, Dict.get?]

theorem identity_state (memberships : Dict) : (m.identity float memberships).get "state" = pyOr (.str m.state) (.str "CONFIRMED") := by
  simp [EstablishMetadata.identity, Dict.get, Dict.get?]

theorem event_metadata : ∃ memberships, payloadMetadata { m.event float canonical reason with seq := some n } =
    .ok (m.identity float memberships) := by
  have hlist : ∀ xs, pyList (.arr xs) = .ok xs := pyList_arr
  have hgen : pyDict (.obj m.generatedBy) = .ok m.generatedBy := by
    unfold pyDict
    cases m.generatedBy with
    | nil => rfl
    | cons x xs => rfl
  let tuples : List Json := m.memberships.tuples.map fun t => .arr [.str t.1, Json.ofStr? t.2.1, Json.ofStr? t.2.2]
  refine ⟨if (Json.arr tuples).truthy then Dict.set m.memberships.dict "tuples" (.arr tuples) else m.memberships.dict, ?_⟩
  show (pyDict (.obj m.memberships.dict) >>= fun memberships => pyList (.arr tuples) >>= fun tuples => pyList (texts m.aliases) >>= fun aliases =>
    pyList (texts m.supportRefs) >>= fun supportRefs => pyDict (.obj m.generatedBy) >>= fun generatedBy => pyList .null >>= fun derivedFrom =>
    pyList .null >>= fun correspondence => _) = _
  rw [hlist, texts, texts, hlist, hlist, hgen]
  rfl

/-- Without an override the metadata are the event's, but for the memberships. -/
theorem winnerMetadata_ok {row : CurrentStateRow} {ev : SemanticEvent} {fields metadata : Dict} (hover : isOverride ev.eventType = false)
    (hfields : identityMetadata ev = .ok fields) (h : winnerMetadata row ev = .ok metadata) :
    metadata = fields ∨ ∃ union, metadata = fields.set "memberships" (.obj union) := by
  unfold winnerMetadata at h
  rw [hfields, hover] at h
  obtain ⟨d, hd, h⟩ := bind_ok h
  cases hd
  simp only [Bool.false_eq_true, if_false] at h
  split at h
  · obtain ⟨union, -, h⟩ := bind_ok h
    cases h
    exact .inr ⟨union, rfl⟩
  · cases h
    exact .inl rfl

theorem winner_metadata {row : CurrentStateRow} {metadata : Dict}
    (h : winnerMetadata row { m.event float canonical reason with seq := some n } = .ok metadata) :
    ∃ memberships, metadata = m.identity float memberships := by
  obtain ⟨memberships, hmeta⟩ := @event_metadata float m canonical reason n
  have hfields : identityMetadata { m.event float canonical reason with seq := some n } = .ok (m.identity float memberships) := hmeta
  rcases winnerMetadata_ok rfl hfields h with rfl | ⟨union, rfl⟩
  · exact ⟨memberships, rfl⟩
  · exact ⟨union, identity_set memberships union⟩

/-- The identity row of a canonical that is established. -/
theorem event_established {r r' : ScalarRow} (hstate : m.state = "CONFIRMED" ∨ m.state = "PROBABLE") (hlt : r.seq < n)
    (hauth : r.authority.isStr userOverride = false)
    (h : Table.identity r { m.event float canonical reason with seq := some n } = some r') : Established m n r' := by
  obtain ⟨row, hrow, rfl⟩ := Option.map_eq_some_iff.1 h
  have hout : outranked (.ofScalar r) { m.event float canonical reason with seq := some n } n = false := by
    have hauth' : (CurrentStateRow.ofScalar r).authority.isStr userOverride = false := hauth
    have hseq : (CurrentStateRow.ofScalar r).seq = r.seq := rfl
    simp only [outranked, hauth', hseq, Bool.false_and, Bool.false_or, Bool.or_eq_false_iff, decide_eq_false_iff_not,
      beq_eq_false_iff_ne]
    omega
  cases hc : reduceCanonicalIdentity (.ofScalar r) { m.event float canonical reason with seq := some n } with
  | error e => rw [hc] at hrow; cases hrow
  | ok row' =>
    rw [hc] at hrow
    cases hrow
    have hseq : seqOn (.ofScalar r) { m.event float canonical reason with seq := some n } = n := rfl
    unfold reduceCanonicalIdentity at hc
    rw [hseq, hout, if_neg Bool.false_ne_true, if_neg (by exact EventType.noConfusion)] at hc
    obtain ⟨metadata, hmeta, hc⟩ := bind_ok hc
    obtain ⟨conf, -, hc⟩ := bind_ok hc
    cases hc
    obtain ⟨memberships, rfl⟩ := winner_metadata hmeta
    refine ⟨⟨_, rfl, identity_keys memberships, identity_support memberships⟩, ?_, rfl, rfl⟩
    change pyOr (pyOr (Dict.get (m.identity float memberships) "state") _) _ = _
    rw [identity_state]
    rcases hstate with h | h <;> rw [h] <;> rfl

/-- A row that is no marker is stored as it is folded. -/
theorem store_upd (t t' : Table) {k : Key} (r : ScalarRow) (hk : k.2 ≠ lockPredicate) :
    store t (upd t' k (some r)) = upd (store t t') k (some r) := by
  funext k'
  by_cases h : k' = k
  · subst h
    simp [store, hk]
  · rw [upd_ne _ _ h, store, store, upd_ne _ _ h]

theorem store_self (t : Table) : store t t = t := by
  funext k
  unfold store
  cases t k with
  | none => rfl
  | some r => simp

/-- An establishment loads the rows of its canonical, of which none is pinned. -/
theorem Unpinned.noStaleLock {t : Table} (h : Unpinned t) (hne : canonical ≠ "") :
    NoStaleLock t [m.event float canonical reason] := by
  intro k hk r hr hlocked
  have hevs : [m.event float canonical reason].filter (·.isSemantic) = [m.event float canonical reason] := rfl
  rw [hevs, mem_loadedKeys] at hk
  have htarget := @event_target float m canonical reason 0 hne
  have hident := @event_identity float m canonical reason 0 hne
  rcases hk with ⟨ev, -, ref, -, rfl⟩ | ⟨ev, hev, hc | hi⟩
  · simp [Table.isLocked, hr, hlocked]
  · rw [List.mem_singleton] at hev
    subst hev
    have hkk : canonicalKey canonical = k := Option.some.inj (htarget.symm.trans hc)
    rw [(h.rows k r (.inl (by rw [← hkk]; rfl)) hr).1] at hlocked
    cases hlocked
  · rw [List.mem_singleton] at hev
    subst hev
    have hkk : identityOfKey canonical = k := Option.some.inj (hident.symm.trans hi)
    rw [(h.rows k r (.inr (by rw [← hkk]; rfl)) hr).1] at hlocked
    cases hlocked

/-- Appended under a fresh key, an establishment writes the two rows of its canonical. -/
theorem append_established {db : Db} (h : Tidy db) (hu : Unpinned db.state) (hne : canonical ≠ "")
    (hstate : m.state = "CONFIRMED" ∨ m.state = "PROBABLE") {key : Uuid} {result : CommitResult} (hfree : seqOfKey db.events key = none)
    (hok : (append db (keyed (m.event float canonical reason) key)).2 = .ok result) :
    ∃ r r', Written canonical db.nextSeq r ∧ Established m db.nextSeq r' ∧
      (append db (keyed (m.event float canonical reason) key)).1.state =
        upd (upd db.state (canonicalKey canonical) (some r)) (identityOfKey canonical) (some r') := by
  obtain ⟨pe, state, hp, htier, happ⟩ := append_fresh hfree hok
  have hprep : prepareAll [⟨0, m.event float canonical reason⟩] = .ok [pe] := by simp [prepareAll, hp, Except.map]
  have hw : ∀ e ∈ [m.event float canonical reason], WellTargeted e := fun e he => by
    rw [List.mem_singleton] at he
    rw [he]
    exact (prepareAll_accepted hprep _ (by simp)).wellTargeted
  obtain ⟨t, ht, rfl⟩ := applyTier0_ok h.keyed hw (hu.noStaleLock hne) htier
  have hred : db.state.reduce { m.event float canonical reason with seq := some db.nextSeq } = some t := by
    obtain ⟨t', ht', hlast⟩ := Option.bind_eq_some_iff.1 ht
    cases hlast
    exact ht'
  have hid : db.state.identityKey { m.event float canonical reason with seq := some db.nextSeq } = some (identityOfKey canonical) := by
    rw [Table.identityKey, event_identity hne, Option.filter_some, if_pos (by rw [hu.unlocked]; rfl)]
  have hl : isLockEvent (SemanticEvent.eventType { m.event float canonical reason with seq := some db.nextSeq }) = false := rfl
  simp only [Table.reduce, hl, Bool.false_eq_true, if_false, event_target hne, Table.reduceChange, hid] at hred
  rw [if_neg (by rw [hu.unlocked]; exact Bool.false_ne_true), Option.map_eq_some_iff] at hred
  obtain ⟨r', hr', rfl⟩ := hred
  have hwritten := @event_written float m canonical reason db.nextSeq hne hstate _ (h.keyed.rowOrSeed _)
    (h.below.rowOrSeed h.stored.start _) (hu.seed (.inl rfl))
  refine ⟨_, r', hwritten, event_established hstate (h.below.rowOrSeed h.stored.start _) (hu.seed (.inr rfl)) hr', ?_⟩
  rw [happ]
  show store db.state (upd (upd db.state (canonicalKey canonical) (some _)) (identityOfKey canonical) (some r')) = _
  rw [store_upd _ _ _ (by simp [identityOfKey, canonicalIdentity, lockPredicate]), store_upd _ _ _ (by simp [canonicalKey, lockPredicate]),
    store_self]

end

/-! ## What a command appends -/

/-- The command that establishes a cluster. -/
def Cluster.establishing (c : Cluster) : ResolutionCommand :=
  ⟨"ESTABLISH", c.ref, some c.ref, c.ids, c.ids.map fun id => (id, c.ref), "canonical establishment", none, some c.metadata⟩

/-- The command that records a member. -/
def mentionCommand (ref : String) (m : SourceMention) : ResolutionCommand :=
  ⟨"MENTION", ref, none, [m.mentionId], [], "entity resolution", some { m with entityId := some ref }, none⟩

/-- The command that aliases a member. -/
def aliasCommand (ref : String) (m : SourceMention) : ResolutionCommand :=
  ⟨"ALIAS", m.mentionId, some ref, [m.mentionId], [(m.mentionId, ref)], "alias resolution", none, none⟩

theorem mem_commands {c : Cluster} {cmd : ResolutionCommand} (h : cmd ∈ c.commands) :
    cmd = c.establishing ∨ ∃ m ∈ c.members, cmd = mentionCommand c.ref m ∨ cmd = aliasCommand c.ref m := by
  rcases List.mem_cons.1 h with rfl | h
  · exact .inl rfl
  · obtain ⟨m, hm, hcmd⟩ := List.mem_flatMap.1 h
    refine .inr ⟨m, hm, ?_⟩
    rcases List.mem_cons.1 hcmd with rfl | hcmd
    · exact .inl rfl
    · split at hcmd
      · exact .inr (List.mem_singleton.1 hcmd)
      · cases hcmd

/-- A cluster as a batch of `resolveMentions` has it. -/
structure Cluster.Sound (c : Cluster) : Prop where
  named : c.ref ≠ ""
  supported : c.metadata.supportRefs = c.ids
  state : c.metadata.state = "CONFIRMED" ∨ c.metadata.state = "PROBABLE"

section
variable (float : ℚ → Number)

/-- The event of a command of a cluster, and the key it is appended under. -/
inductive Issues (c : Cluster) : ResolutionCommand → SemanticEvent → Uuid → Prop
  | establish : Issues c c.establishing (c.metadata.event float c.ref "canonical establishment") (establishKey c.ref (c.metadata.dict float))
  | mention {m : SourceMention} {ev : SemanticEvent} : m ∈ c.members → (pyUuid m.mentionId).isSome →
      mentionEvent float { m with entityId := some c.ref } = .ok ev → Issues c (mentionCommand c.ref m) ev m.mentionId
  | aliased {m : SourceMention} : m ∈ c.members →
      Issues c (aliasCommand c.ref m) (aliasEvent m.mentionId c.ref (some "alias resolution")) (aliasKey m.mentionId c.ref)

variable {float} {refused : SourceMention → Option PyError} {t t' : Tables} {c : Cluster} {cmd : ResolutionCommand}

theorem lift_ok {r : Tables × Except AppendError CommitResult} {result : CommitResult} (h : lift r = (t', .ok result)) :
    r = (t', .ok result) := by
  obtain ⟨t₁, e | x⟩ := r
  · cases h
  · cases h
    rfl

theorem store_append_ok {call : Call} {result : CommitResult} (h : t.append call = (t', .ok result)) :
    append t.ledger call = (t'.ledger, .ok result) := by
  rw [Store.append_ledger, h]

/-- The side effects leave the ledger as the append does. -/
theorem completeAndAppend_ok {ev : SemanticEvent} {key : Uuid} {effects : Tables → Except PyError (List MapRow)} {result : CommitResult}
    (h : t.completeAndAppend (keyed ev key) effects = (t', .ok result)) : append t.ledger (keyed ev key) = (t'.ledger, .ok result) := by
  have hcall : ({ keyed ev key with expectedVersion := none } : Call) = keyed ev key := rfl
  unfold Store.completeAndAppend at h
  rw [hcall] at h
  split at h
  · cases h
  · rename_i t₁ result₁ happ
    split at h
    · cases h
    · cases h
      have hdb := store_append_ok happ
      exact hdb

theorem done_ok {r : Tables × Except ResolveError CommitResult} (h : (r.1, r.2.map fun _ => ()) = (t', .ok ())) :
    ∃ result, r = (t', .ok result) := by
  obtain ⟨t₁, e | x⟩ := r
  · cases h
  · cases h
    exact ⟨x, rfl⟩

/-- A command of a cluster that returns has appended its event, or has found it. -/
theorem applyCommand_ok (hs : c.Sound) (hcmd : cmd ∈ c.commands) (h : applyCommand float refused t cmd = (t', .ok ())) :
    ∃ ev key result, Issues float c cmd ev key ∧ append t.ledger (keyed ev key) = (t'.ledger, .ok result) := by
  rcases mem_commands hcmd with rfl | ⟨m, hm, rfl | rfl⟩
  · obtain ⟨result, hr⟩ := done_ok (r := establishOn t c.ref (c.metadata.establishment float "canonical establishment")) h
    unfold establishOn at hr
    rw [establishEvent_eq] at hr
    exact ⟨_, _, result, .establish, store_append_ok (lift_ok hr)⟩
  · obtain ⟨result, hr⟩ := done_ok (r := record float refused t { m with entityId := some c.ref }) h
    unfold record at hr
    split at hr
    · cases hr
    · rename_i huuid
      split at hr
      · cases hr
      · rename_i ev hev
        exact ⟨ev, _, result, .mention hm (Option.ne_none_iff_isSome.1 huuid) hev, completeAndAppend_ok (lift_ok hr)⟩
  · have htarget : (nonEmpty (some c.ref)).getD m.mentionId = c.ref := by simp [nonEmpty, Option.filter, hs.named]
    obtain ⟨result, hr⟩ := done_ok
      (r := resolverAlias t m.mentionId ((nonEmpty (some c.ref)).getD m.mentionId) (some "alias resolution")) h
    rw [htarget] at hr
    refine ⟨_, _, result, .aliased hm, ?_⟩
    unfold resolverAlias at hr
    dsimp only at hr
    split at hr
    · exact completeAndAppend_ok (lift_ok hr)
    · exact store_append_ok (lift_ok hr)

end

/-! ## What a command does -/

/-- The log has the key. -/
def takenIn (db : Db) (key : Uuid) : Bool := (seqOfKey db.events key).isSome

/-- The entity of the last `EntityMentioned` event of a mention. -/
def latestMention (rows : List EventRow) (id : String) : Option Json :=
  (rows.reverse.find? fun r => r.eventType = .EntityMentioned && (r.payload.get "mention_id").isStr id).map fun r => r.payload.get "entity_id"

/-- The metadata a command establishes a canonical with. -/
def establishedBy (canonical : String) (cmd : ResolutionCommand) : Option EstablishMetadata :=
  if cmd.kind = "ESTABLISH" ∧ cmd.entityId = canonical then cmd.metadata else none

/-- The entity a command makes the canonical row of `entity` name. -/
def namedBy (entity : String) (cmd : ResolutionCommand) : Option String :=
  if (cmd.kind = "ESTABLISH" ∨ cmd.kind = "ALIAS") ∧ cmd.entityId = entity then cmd.targetEntityId else none

/-- The entity a command records a mention for. -/
def mentionedBy (id : String) (cmd : ResolutionCommand) : Option String := cmd.mention.bind fun m => if m.mentionId = id then m.entityId else none

/-- What a command makes of the ledger where its key is free. -/
structure Effects (db db' : Db) (cmd : ResolutionCommand) (key : Uuid) : Prop where
  taken : takenIn db' = upd (takenIn db) key true
  unpinned : Unpinned db'.state
  identity : ∀ canonical, match establishedBy canonical cmd with
    | some m => ∃ r, db'.state (identityOfKey canonical) = some r ∧ Established m db.nextSeq r
    | none => db'.state (identityOfKey canonical) = db.state (identityOfKey canonical)
  canonical : ∀ entity, entity ≠ "" → match namedBy entity cmd with
    | some object => Names db'.state entity object
    | none => db'.state (canonicalKey entity) = db.state (canonicalKey entity)
  mention : ∀ id, match mentionedBy id cmd with
    | some entity => latestMention db'.events id = some (.str entity)
    | none => latestMention db'.events id = latestMention db.events id

section
variable {db db' : Db} {ev : SemanticEvent} {key : Uuid} {result : CommitResult}

theorem seqOfKey_snoc (rows : List EventRow) (row : EventRow) (key : Uuid) : (seqOfKey (rows ++ [row]) key).isSome =
    ((seqOfKey rows key).isSome || row.idempotencyKey == some key) := by
  unfold seqOfKey
  rw [List.find?_append, Option.isSome_map, Option.isSome_or, Option.isSome_map]
  congr 1
  by_cases h : row.idempotencyKey == some key <;> simp [h]

/-- What an append that returns without having found its key leaves. -/
theorem append_row (hfree : seqOfKey db.events key = none) (hok : append db (keyed ev key) = (db', .ok result)) :
    ∃ pe, ev.prepare = .ok pe ∧ applyTier0 db.state [ev] [db.nextSeq] = .ok db'.state ∧
      db'.events = db.events ++ [.of pe db.nextSeq (some key)] := by
  obtain ⟨pe, state, hp, htier, happ⟩ := append_fresh hfree (by rw [hok])
  rw [hok] at happ
  have hdb : db' = ⟨db.events ++ [.of pe db.nextSeq (some key)], state, db.nextSeq + 1⟩ := happ
  exact ⟨pe, hp, by rw [hdb]; exact htier, by rw [hdb]⟩

theorem append_taken (hfree : seqOfKey db.events key = none) (hok : append db (keyed ev key) = (db', .ok result)) :
    takenIn db' = upd (takenIn db) key true := by
  obtain ⟨pe, -, -, hevents⟩ := append_row hfree hok
  funext k
  unfold takenIn
  rw [hevents, seqOfKey_snoc, upd]
  by_cases hk : k = key
  · rw [if_pos hk, hk]
    simp [EventRow.of]
  · rw [if_neg hk]
    simp [EventRow.of, Ne.symm hk]

theorem latestMention_snoc (rows : List EventRow) (row : EventRow) (id : String) : latestMention (rows ++ [row]) id =
    if row.eventType = .EntityMentioned && (row.payload.get "mention_id").isStr id then some (row.payload.get "entity_id")
    else latestMention rows id := by
  unfold latestMention
  rw [List.reverse_append, List.reverse_singleton, List.singleton_append, List.find?_cons]
  split <;> rename_i h <;> simp [h]

/-- An event of another type is no mention. -/
theorem latestMention_other (hfree : seqOfKey db.events key = none) (hok : append db (keyed ev key) = (db', .ok result))
    (htype : ev.eventType ≠ .EntityMentioned) (id : String) : latestMention db'.events id = latestMention db.events id := by
  obtain ⟨pe, hp, -, hevents⟩ := append_row hfree hok
  have htype' : pe.eventType = ev.eventType := by
    obtain ⟨v, s, -, -, rfl⟩ := prepare_ok hp
    rfl
  rw [hevents, latestMention_snoc, if_neg]
  simp [EventRow.of, htype', htype]

/-- The log has a mention as it was recorded. -/
theorem latestMention_mention (hfree : seqOfKey db.events key = none) (hok : append db (keyed ev key) = (db', .ok result))
    (htype : ev.eventType = .EntityMentioned) (id : String) : latestMention db'.events id =
      if (ev.payload.get "mention_id").isStr id then some (ev.payload.get "entity_id") else latestMention db.events id := by
  obtain ⟨pe, hp, -, hevents⟩ := append_row hfree hok
  have hrow : pe.eventType = .EntityMentioned ∧ pe.payload = ev.payload := by
    obtain ⟨v, s, -, -, rfl⟩ := prepare_ok hp
    refine ⟨htype, ?_⟩
    show (upcastPayload ev.eventType v ev.payload).2 = ev.payload
    rw [htype]
    rfl
  rw [hevents, latestMention_snoc]
  simp [EventRow.of, hrow.1, hrow.2]

/-- A mention writes candidate rows only. -/
theorem mention_frame (hfree : seqOfKey db.events key = none) (hok : append db (keyed ev key) = (db', .ok result))
    (htype : ev.eventType = .EntityMentioned) {k : Key} (hk : k.2 ≠ "CANDIDATE") : db'.state k = db.state k := by
  obtain ⟨pe, hp, htier, -⟩ := append_row hfree hok
  have hl : isLockEvent ev.eventType = false := by rw [htype]; rfl
  refine tier0_frame hl htier fun hw => hk ?_
  have hident : identityEventTarget ev = none := by
    have href : identityRef ev = .null := by simp [identityRef, htype]
    rw [identityEventTarget, href]
    rfl
  unfold writes at hw
  simp only [hl, Bool.false_eq_true, if_false, hident] at hw
  cases htarget : changeTarget ev with
  | none => simp [htarget] at hw
  | some target =>
    simp only [htarget, Option.toList_none, List.mem_cons, List.not_mem_nil, or_false] at hw
    rw [hw]
    exact mentioned_target (accepted_of_prepare hp) htype (changeTarget_eq htarget).1

theorem Unpinned.of_rows {t t' : Table} (h : Unpinned t) (hrows : ∀ k : Key, k.2 ≠ "CANDIDATE" → t' k = t k) : Unpinned t' := by
  constructor
  · intro e
    rw [Table.isLocked, hrows _ (by simp [lockPredicate])]
    exact h.unlocked e
  · intro k r hk hr
    rw [hrows k (by rcases hk with hk | hk <;> rw [hk] <;> simp [canonicalIdentity])] at hr
    exact h.rows k r hk hr

/-- A row that is neither pinned nor the user's takes the place of another. -/
theorem Unpinned.upd {t : Table} (h : Unpinned t) {k : Key} {r : ScalarRow} (hk : k.2 ≠ lockPredicate)
    (hr : r.state.isStr "LOCKED" = false ∧ r.authority.isStr userOverride = false) : Unpinned (upd t k (some r)) := by
  constructor
  · intro e
    rw [Table.isLocked, upd_ne _ _ (by rintro rfl; exact hk rfl)]
    exact h.unlocked e
  · intro k' r' hk' hr'
    by_cases he : k' = k
    · rw [he, upd_self] at hr'
      cases hr'
      exact hr
    · rw [upd_ne _ _ he] at hr'
      exact h.rows k' r' hk' hr'

end

section
variable {float : ℚ → Number} {db db' : Db} {ev : SemanticEvent} {key : Uuid} {result : CommitResult} {c : Cluster}

theorem mention_effects (h : Unpinned db.state) {m : SourceMention} (hev : mentionEvent float { m with entityId := some c.ref } = .ok ev)
    (hfree : seqOfKey db.events key = none) (hok : append db (keyed ev key) = (db', .ok result)) :
    Effects db db' (mentionCommand c.ref m) key := by
  obtain ⟨generatedBy, -, rfl⟩ := map_eq_ok.1 hev
  have hrows := fun k => @mention_frame _ _ _ _ _ hfree hok rfl k
  refine ⟨append_taken hfree hok, h.of_rows fun k hk => hrows k hk, fun canonical => ?_, fun entity _ => ?_, fun id => ?_⟩
  · rw [show establishedBy canonical (mentionCommand c.ref m) = none by simp [establishedBy, mentionCommand]]
    exact hrows _ (by simp [identityOfKey, canonicalIdentity])
  · rw [show namedBy entity (mentionCommand c.ref m) = none by simp [namedBy, mentionCommand]]
    exact hrows _ (by simp [canonicalKey])
  · rw [latestMention_mention hfree hok rfl]
    have hid : (mentionedBy id (mentionCommand c.ref m)) = if m.mentionId = id then some c.ref else none := rfl
    rw [hid]
    by_cases he : m.mentionId = id
    · rw [if_pos he, if_pos (by rw [← he]; exact Json.isStr_iff.2 rfl)]
      rfl
    · rw [if_neg he, if_neg]
      intro hc
      exact he (by simpa [Dict.get, Dict.get?] using Json.isStr_iff.1 hc)

theorem aliased_effects (hs : c.Sound) (ht : Tidy db) (h : Unpinned db.state) {m : SourceMention} {reason : Option String}
    (hfree : seqOfKey db.events key = none)
    (hok : append db (keyed (aliasEvent m.mentionId c.ref reason) key) = (db', .ok result)) :
    Effects db db' (aliasCommand c.ref m) key := by
  have hmention : ∀ id, latestMention db'.events id = latestMention db.events id :=
    latestMention_other hfree hok (by exact EventType.noConfusion)
  have hstate : (append db (keyed (aliasEvent m.mentionId c.ref reason) key)).1.state = db'.state := by rw [hok]
  have hunmentioned : ∀ id, mentionedBy id (aliasCommand c.ref m) = none := fun _ => rfl
  have hunestablished : ∀ canonical, establishedBy canonical (aliasCommand c.ref m) = none := fun canonical => by
    simp [establishedBy, aliasCommand]
  have hnamed : ∀ entity, namedBy entity (aliasCommand c.ref m) = if m.mentionId = entity then some c.ref else none := fun entity => by
    simp [namedBy, aliasCommand]
  by_cases hne : m.mentionId = ""
  · have hsame : db'.state = db.state := hstate.symm.trans (append_unnamed (.inr rfl) hne ht (h.free _) (some key))
    refine ⟨append_taken hfree hok, by rw [hsame]; exact h, fun canonical => ?_, fun entity he => ?_, fun id => ?_⟩
    · rw [hunestablished, hsame]
    · rw [hnamed, if_neg (fun hc => he (hc.symm.trans hne)), hsame]
    · rw [hunmentioned]
      exact hmention id
  · obtain ⟨r, hr, hst⟩ := @append_resolved "ALIAS" m.mentionId (some c.ref) [m.mentionId] _ _ (.inr rfl) hne db ht (h.free _) (some key) hfree
    have hst' : db'.state = upd db.state (canonicalKey m.mentionId) (some r) := hstate.symm.trans hst
    refine ⟨append_taken hfree hok, ?_, fun canonical => ?_, fun entity _ => ?_, fun id => ?_⟩
    · rw [hst']
      exact h.upd (by simp [canonicalKey, lockPredicate]) ⟨hr.pinned, hr.user⟩
    · rw [hunestablished, hst']
      exact upd_ne _ _ (by simp [identityOfKey, canonicalKey, canonicalIdentity])
    · rw [hnamed, hst']
      by_cases he : m.mentionId = entity
      · rw [if_pos he, ← he]
        exact ⟨r, upd_self .., hr.object.trans (congrArg some (objectOf_some hs.named))⟩
      · rw [if_neg he]
        exact upd_ne _ _ (canonicalKey_ne (Ne.symm he))
    · rw [hunmentioned]
      exact hmention id

theorem establish_effects (hs : c.Sound) (ht : Tidy db) (h : Unpinned db.state) {reason : String} (hfree : seqOfKey db.events key = none)
    (hok : append db (keyed (c.metadata.event float c.ref reason) key) = (db', .ok result)) :
    Effects db db' c.establishing key := by
  obtain ⟨r, r', hr, hr', hst⟩ := append_established ht h hs.named hs.state hfree (by rw [hok])
  rw [hok] at hst
  have hst' : db'.state = upd (upd db.state (canonicalKey c.ref) (some r)) (identityOfKey c.ref) (some r') := hst
  have hestablished : ∀ canonical, establishedBy canonical c.establishing = if c.ref = canonical then some c.metadata else none :=
    fun canonical => by simp [establishedBy, Cluster.establishing]
  have hnamed : ∀ entity, namedBy entity c.establishing = if c.ref = entity then some c.ref else none := fun entity => by
    simp [namedBy, Cluster.establishing]
  refine ⟨append_taken hfree hok, ?_, fun canonical => ?_, fun entity _ => ?_, fun id => ?_⟩
  · rw [hst']
    refine (h.upd (by simp [canonicalKey, lockPredicate]) ⟨hr.pinned, hr.user⟩).upd
      (by simp [identityOfKey, canonicalIdentity, lockPredicate]) ⟨?_, ?_⟩
    · rw [hr'.state]
      rcases hs.state with hc | hc <;> rw [hc] <;> rfl
    · rw [hr'.authority]
      rfl
  · rw [hestablished, hst']
    by_cases he : c.ref = canonical
    · rw [if_pos he, ← he]
      exact ⟨r', upd_self .., hr'⟩
    · rw [if_neg he]
      have hne : identityOfKey canonical ≠ identityOfKey c.ref := fun hc => he (congrArg Prod.fst hc).symm
      exact (upd_ne _ _ hne).trans (upd_ne _ _ (by simp [identityOfKey, canonicalKey, canonicalIdentity]))
  · rw [hnamed, hst']
    have hother : canonicalKey entity ≠ identityOfKey c.ref := by simp [identityOfKey, canonicalKey, canonicalIdentity]
    by_cases he : c.ref = entity
    · rw [if_pos he, ← he]
      exact ⟨r, (upd_ne _ _ (by simp [identityOfKey, canonicalKey, canonicalIdentity])).trans (upd_self ..), hr.object⟩
    · rw [if_neg he]
      exact (upd_ne _ _ hother).trans (upd_ne _ _ (canonicalKey_ne (Ne.symm he)))
  · exact latestMention_other hfree hok (by exact EventType.noConfusion) id

end
/-! ## What a batch does -/

section
variable (float : ℚ → Number)

/-- The key a command is applied under. -/
def ResolutionCommand.key (cmd : ResolutionCommand) : Option Uuid :=
  match cmd.kind, cmd.mention with
  | "MENTION", some m => some m.mentionId
  | "ALIAS", _ => some (aliasKey cmd.entityId ((nonEmpty cmd.targetEntityId).getD cmd.entityId))
  | "ESTABLISH", _ => some (establishKey cmd.entityId (cmd.establishment float).metadata)
  | _, _ => none

/-- The commands that are appended: neither the log nor an earlier command has their key. -/
def freshCommands (taken : Uuid → Bool) : List ResolutionCommand → List ResolutionCommand
  | [] => []
  | cmd :: cmds =>
    match cmd.key float with
    | some key => if taken key then freshCommands taken cmds else cmd :: freshCommands (upd taken key true) cmds
    | none => freshCommands taken cmds

/-- What the last of the commands does, of those that do it. -/
def lastDone {α : Type} (does : ResolutionCommand → Option α) (cmds : List ResolutionCommand) : Option α := cmds.reverse.findSome? does

theorem lastDone_cons {α : Type} (does : ResolutionCommand → Option α) (cmd : ResolutionCommand) (cmds : List ResolutionCommand) :
    lastDone does (cmd :: cmds) = (lastDone does cmds).or (does cmd) := by
  unfold lastDone
  rw [List.reverse_cons, List.findSome?_append]
  congr 1
  cases h : does cmd <;> simp [h]

variable {float} {refused : SourceMention → Option PyError} {c : Cluster} {cmd : ResolutionCommand} {ev : SemanticEvent} {key : Uuid}

theorem Issues.under (hs : c.Sound) (h : Issues float c cmd ev key) : cmd.key float = some key := by
  cases h with
  | establish => rfl
  | mention => rfl
  | aliased =>
    have htarget : ∀ id, (nonEmpty (some c.ref)).getD id = c.ref := fun id => by simp [nonEmpty, Option.filter, hs.named]
    simp [ResolutionCommand.key, aliasCommand, htarget]

theorem Issues.effects (hs : c.Sound) (h : Issues float c cmd ev key) {db db' : Db} (ht : Tidy db) (hu : Unpinned db.state)
    (hfree : seqOfKey db.events key = none) {result : CommitResult} (hok : append db (keyed ev key) = (db', .ok result)) :
    Effects db db' cmd key := by
  cases h with
  | establish => exact establish_effects hs ht hu hfree hok
  | mention _ _ hev => exact mention_effects hu hev hfree hok
  | aliased => exact aliased_effects hs ht hu hfree hok

/-- Commands of clusters that all return: the tables stay tidy and unpinned, and what is seen of them is what the last command
that is appended makes of it. -/
theorem applyCommands_ok {cmds : List ResolutionCommand} (hcmds : ∀ cmd ∈ cmds, ∃ c : Cluster, c.Sound ∧ cmd ∈ c.commands) :
    ∀ {t t' : Tables}, Tidy t.ledger → Unpinned t.ledger.state → applyCommands float refused t cmds = (t', .ok ()) →
      (Tidy t'.ledger ∧ Unpinned t'.ledger.state) ∧
      ∀ {α β : Type} {does : ResolutionCommand → Option α} {seen : Db → β} {made : α → β → Prop},
        (∀ {db db' cmd key}, Effects db db' cmd key → match does cmd with | some a => made a (seen db') | none => seen db' = seen db) →
        match lastDone does (freshCommands float (takenIn t.ledger) cmds) with
        | some a => made a (seen t'.ledger)
        | none => seen t'.ledger = seen t.ledger := by
  induction cmds with
  | nil =>
    intro t t' ht hu h
    cases h
    exact ⟨⟨ht, hu⟩, fun _ => rfl⟩
  | cons cmd cmds ih =>
    intro t t' ht hu h
    rw [applyCommands] at h
    split at h
    · rename_i t₁ h₁
      obtain ⟨c, hs, hcmd⟩ := hcmds cmd (by simp)
      obtain ⟨ev, key, result, hissue, happ⟩ := applyCommand_ok hs hcmd h₁
      have ht₁ : Tidy t₁.ledger := by
        have h₂ := ht.append (keyed ev key)
        rwa [happ] at h₂
      have hkey : freshCommands float (takenIn t.ledger) (cmd :: cmds) =
          if takenIn t.ledger key then freshCommands float (takenIn t.ledger) cmds
          else cmd :: freshCommands float (upd (takenIn t.ledger) key true) cmds := by
        rw [freshCommands, hissue.under hs]
      have hrest := fun hu₁ => ih (fun cmd' h' => hcmds cmd' (List.mem_cons_of_mem _ h')) (t := t₁) ht₁ hu₁ h
      cases hseq : seqOfKey t.ledger.events key with
      | some n =>
        have hsame : t₁.ledger = t.ledger := by
          rw [append_found hseq] at happ
          exact (Prod.mk.inj happ).1.symm
        rw [hsame] at hrest
        rw [hkey, if_pos (by rw [takenIn, hseq]; rfl)]
        exact hrest hu
      | none =>
        have heff := hissue.effects hs ht hu hseq happ
        obtain ⟨hkept, hseen⟩ := hrest heff.unpinned
        refine ⟨hkept, fun {α β does seen made} hdoes => ?_⟩
        rw [hkey, if_neg (by rw [takenIn, hseq]; exact Bool.false_ne_true), ← heff.taken, lastDone_cons]
        have hlast := hseen hdoes
        have hone := hdoes heff
        cases hl : lastDone does (freshCommands float (takenIn t₁.ledger) cmds) with
        | some a =>
          rw [hl] at hlast
          exact hlast
        | none =>
          rw [hl] at hlast
          rw [Option.none_or, hlast]
          exact hone
    · cases h

end

end Umd.Resolution
