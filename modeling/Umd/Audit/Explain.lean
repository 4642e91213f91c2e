import Umd.Storage.Appended
/-!
# Explanations of a change

`AuditService.explain` finds the events of the ledger that name a subject and tells what the
latest of them changed. The chain of causes it reports is the longest one that is known and does
not come back to itself (`causationChain_longest`).
-/

namespace Umd.Audit

open Umd.Lib Umd.Events Umd.Reducer Umd.Ledger Umd.Projections

/-! ## The questions -/

/-- A subject, with the predicate after the first `#` if there is one. -/
def splitSubject (subject : String) : String × Option String :=
  match subject.toList.span (· ≠ '#') with
  | (name, _ :: predicate) => (String.ofList name, some (String.ofList predicate))
  | (_, []) => (subject, none)

/-- The fields by which an event is found. -/
def subjectKeys : List String := ["subject_ref", "entity_ref", "source_id", "entity_id", "subject_entity_id"]

/-- What narrows a question: a time, a cause, a correlation. -/
structure Narrowing where
  asOf : Option Nat := none
  causation : Option Nat := none
  correlation : Option String := none

section

-- the text of a JSONB value that is no string, and the transaction time of a row
variable (jsonbText : Json → String) (txTime : EventRow → Nat)

/-- `payload[key].as_string()` -/
def asString : Json → Option String
  | .null => none
  | .str s => some s
  | j => some (jsonbText j)

def mentions (subject : String) (payload : Dict) : Bool :=
  subjectKeys.any fun key => asString jsonbText (payload.get key) == some subject

def hasPredicate (predicate : String) (payload : Dict) : Bool :=
  asString jsonbText (payload.get "predicate_code") == some predicate || asString jsonbText (payload.get "predicate") == some predicate

/-- A predicate that is asked for: one that is not empty. -/
def asked (predicate : Option String) : Option String := predicate.filter (· ≠ "")

def about (subject : String) (predicate : Option String) (payload : Dict) : Bool :=
  mentions jsonbText subject payload && (asked predicate).all fun p => hasPredicate jsonbText p payload

def Narrowing.admits (narrowing : Narrowing) (row : EventRow) : Bool :=
  (narrowing.asOf.all fun time => decide (txTime row ≤ time)) && (narrowing.causation.all fun seq => row.causationId == some seq) &&
    narrowing.correlation.all fun id => row.correlationId == some id

/-- The event of a row, with the payload as it is stored. -/
def readEvent (row : EventRow) : SemanticEvent where
  eventType := row.eventType
  payload := row.payload
  authority := row.authority
  confidence := row.confidence
  generatedBy := row.generatedBy
  correlationId := row.correlationId
  causationId := row.causationId
  createdBy := row.createdBy
  seq := some row.seq

/-- `_events` -/
def events (rows : List EventRow) (subject : String) (predicate : Option String) (narrowing : Narrowing) : List SemanticEvent :=
  ((rows.filter fun row => about jsonbText subject predicate row.payload && narrowing.admits txTime row).insertionSort
    fun row row' => row.seq ≤ row'.seq).map readEvent

end

/-! ## The answers -/

/-- What is shown of a row. -/
structure Shown where
  objectRef : Option String
  confidence : Json
  authority : Json
  state : Json
  seq : Nat

def shown (row : ScalarRow) : Shown := ⟨row.objectRef, row.confidence, row.authority, row.state, row.seq⟩

/-- The rows of a subject by predicate; `None` is the answer without rows. -/
abbrev Rows := String → Option Shown

/-- The row of the predicate, if one is asked for. -/
def narrowRows (predicate : Option String) (rows : Rows) : Rows := fun p => if (asked predicate).all (p = ·) then rows p else none

/-- `_current_row` -/
def currentRow (table : Table) (subject : String) (predicate : Option String) : Rows :=
  narrowRows predicate fun p => (table (subject, p)).map shown

/-- The rows of a subject in a folded state. -/
def rowsOf (state : CurrentReducedState) (subject : String) : Rows := fun p => (state.rows (subject, p)).map fun row => shown row.scalar

/-- `_prior_value` -/
def priorValue (events : List SemanticEvent) (subject : String) (predicate : Option String) : Except PyError Rows := do
  let state ← replay events.dropLast
  return narrowRows predicate (rowsOf state subject)

/-- `_evidence` -/
def evidence (event : SemanticEvent) : List String :=
  ["evidence", "support_refs", "refs", "derived_from"].flatMap fun key =>
    match event.payload.get key with
    | .arr values => values.map pyStr
    | .str value => [value]
    | _ => []

/-- `_history_entry`; no event has a time here. -/
structure HistoryEntry where
  seq : Option Nat
  eventType : EventType
  authority : Option String
  createdBy : Option String
  causationId : Option Nat
  correlationId : Option String
  payload : Dict

def historyEntry (event : SemanticEvent) : HistoryEntry :=
  ⟨event.seq, event.eventType, event.authority, event.createdBy, event.causationId, event.correlationId.filter (· ≠ ""), event.payload⟩

/-- `by_seq`, where a later event replaces an earlier one. -/
def bySeq (events : List SemanticEvent) (seq : Nat) : Option SemanticEvent := events.reverse.find? fun event => event.seq = some seq

/-- At most `n` turns of the loop of `_causation_chain`. -/
def chainFrom (events : List SemanticEvent) : Nat → List Nat → Option Nat → List Nat
  | 0, chain, _ => chain
  | _ + 1, chain, none => chain
  | n + 1, chain, some cur =>
    match bySeq events cur with
    | none => chain
    | some event => if cur ∈ chain then chain else chainFrom events n (chain ++ [cur]) event.causationId

structure ChangeCause where
  chain : List Nat
  causeSeq : Option Nat
  reason : Json

/-- `_causation_chain` -/
def causationChain (events : List SemanticEvent) (latest : SemanticEvent) : Option ChangeCause :=
  let chain := chainFrom events (events.length + 1) [] latest.causationId
  let reason := pyOr (latest.payload.get "reason") (latest.payload.get "cause")
  if chain ≠ [] ∨ reason.truthy = true then some { chain, causeSeq := latest.causationId, reason } else none

structure ChangeExplanation where
  subject : String
  predicate : Option String
  asOf : Option Nat
  current : Rows
  prior : Rows := fun _ => none
  actor : Option String := none
  evidence : List String := []
  generatedBy : Dict := []
  changeCause : Option ChangeCause := none
  history : List HistoryEntry := []

/-- `AuditService.explain` -/
def explain (jsonbText : Json → String) (txTime : EventRow → Nat) (db : Db) (subject : String) (narrowing : Narrowing) :
    Except PyError ChangeExplanation :=
  let (subject, predicate) := splitSubject subject
  let events := events jsonbText txTime db.events subject predicate narrowing
  let unchanged : ChangeExplanation :=
    { subject, predicate, asOf := narrowing.asOf, current := currentRow db.state subject predicate }
  match events.getLast? with
  | none => .ok unchanged
  | some latest => do
    let prior ← priorValue events subject predicate
    return { unchanged with
      prior
      actor := (latest.createdBy.filter (· ≠ "")).or latest.authority
      evidence := evidence latest
      generatedBy := latest.generatedBy
      changeCause := causationChain events latest
      history := events.map historyEntry }

/-! ## Causes -/

/-- The cause of an event, the cause of this cause, and so on. -/
def causes (events : List SemanticEvent) (latest : SemanticEvent) : Nat → Option Nat
  | 0 => latest.causationId
  | n + 1 => (causes events latest n).bind fun cur => (bySeq events cur).bind (·.causationId)

/-- Causes that are known and follow one another from the first on. -/
structure Chained (events : List SemanticEvent) (latest : SemanticEvent) (chain : List Nat) : Prop where
  nodup : chain.Nodup
  known : ∀ n ∈ chain, (bySeq events n).isSome = true
  linked : ∀ i, (h : i < chain.length) → causes events latest i = some chain[i]

variable {events : List SemanticEvent} {latest : SemanticEvent} {chain : List Nat}

theorem Chained.length_le (h : Chained events latest chain) : chain.length ≤ events.length := by
  have hsub : chain ⊆ events.filterMap (·.seq) := by
    intro n hn
    obtain ⟨event, hevent⟩ := Option.isSome_iff_exists.1 (h.known n hn)
    refine List.mem_filterMap.2 ⟨event, List.mem_reverse.1 (List.mem_of_find?_eq_some hevent), ?_⟩
    simpa using List.find?_some hevent
  exact (h.nodup.subperm hsub).length_le.trans (List.length_filterMap_le ..)

theorem Chained.append (h : Chained events latest chain) {cur : Nat} (hcur : causes events latest chain.length = some cur)
    (hknown : (bySeq events cur).isSome = true) (hnew : cur ∉ chain) : Chained events latest (chain ++ [cur]) where
  nodup := h.nodup.append (List.nodup_singleton cur) (List.disjoint_singleton.2 hnew)
  known n hn := by
    rcases List.mem_append.1 hn with hn | hn
    · exact h.known n hn
    · rw [List.mem_singleton.1 hn]
      exact hknown
  linked i hi := by
    rw [List.length_append, List.length_singleton] at hi
    by_cases hlast : i = chain.length
    · subst hlast
      simpa using hcur
    · have hlt : i < chain.length := by omega
      rw [List.getElem_append_left hlt]
      exact h.linked i hlt

/-- There are turns enough: the loop ends where there is no further cause, none that is known, or one again. -/
theorem chainFrom_ends {n : Nat} {cur : Option Nat} (h : Chained events latest chain) (hcur : causes events latest chain.length = cur)
    (hfuel : n + chain.length = events.length + 1) :
    Chained events latest (chainFrom events n chain cur) ∧
      ∀ next, causes events latest (chainFrom events n chain cur).length = some next →
        bySeq events next = none ∨ next ∈ chainFrom events n chain cur := by
  induction n generalizing chain cur with
  | zero =>
    have := h.length_le
    omega
  | succ n ih =>
    cases cur with
    | none =>
      refine ⟨h, fun next hnext => ?_⟩
      rw [chainFrom, hcur] at hnext
      cases hnext
    | some cur =>
      rw [chainFrom]
      split
      · next hunknown =>
        refine ⟨h, fun next hnext => .inl ?_⟩
        rw [hcur] at hnext
        rw [← Option.some.inj hnext, hunknown]
      · next event hevent =>
        split
        · next hagain =>
          refine ⟨h, fun next hnext => .inr ?_⟩
          rw [hcur] at hnext
          rw [← Option.some.inj hnext]
          exact hagain
        · next hnew =>
          refine ih (h.append hcur (by rw [hevent]; rfl) hnew) ?_ ?_
          · rw [List.length_append, List.length_singleton, causes, hcur]
            simp [hevent]
          · rw [List.length_append, List.length_singleton]
            omega

/-- **The chain that is reported holds the causes in turn, each of them known and none twice, and stops only where there is no
cause, where it is not among the events, or where it is in the chain already.** -/
theorem causationChain_longest (events : List SemanticEvent) (latest : SemanticEvent) :
    let chain := ((causationChain events latest).map (·.chain)).getD []
    Chained events latest chain ∧
      ∀ next, causes events latest chain.length = some next → bySeq events next = none ∨ next ∈ chain := by
  have hends := @chainFrom_ends events latest [] (events.length + 1) latest.causationId
    ⟨.nil, by simp, by simp⟩ rfl (by simp)
  unfold causationChain
  dsimp only
  split
  · exact hends
  · next hnone =>
    have hchain : chainFrom events (events.length + 1) [] latest.causationId = [] := by
      by_contra hne
      exact hnone (.inl hne)
    rw [hchain] at hends
    exact hends

end Umd.Audit
