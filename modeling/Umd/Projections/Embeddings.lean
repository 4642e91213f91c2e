import Umd.Lib.Catchup
import Umd.Lib.Python
import Umd.Lib.Steps
import Umd.Projections.SearchEdges
/-!
# The vector projection

`EmbeddingProjectionBuilder` appends a row for the first text of each segment and mention, and
never changes one: beside any appends and any quarantine the rows only grow until the table is
wiped, and each has the vector of a text the log has (`vectors_append_only`). However the log has
been applied, a run that ends unpaused leaves the rows of the whole log, if no run has skipped
events (`vectors_replayed`).
-/

namespace Umd.Projections

open Umd.Lib Umd.Events Umd.Reducer Umd.Ledger

/-- A row of `embedding`. -/
structure EmbeddingRow (ν : Type) where
  segmentId : UuidValue
  model : String
  modelVersion : String
  evidenceRef : String
  sequenceNo : Nat
  vector : ν

abbrev EmbeddingTable (ν : Type) := List (EmbeddingRow ν)

def exactFallbackModel : String := "umd-exact-fallback"

def exactFallbackVersion : String := "1"

/-- `_next_sequence` -/
def nextSequence {ν : Type} (t : EmbeddingTable ν) : Nat := t.foldr (fun row n => max row.sequenceNo n) 0 + 1

section

-- `embedText` is the embedder, `registered` tells whether a segment is there
variable {ν : Type} (embedText : String → ν) (registered : UuidValue → Bool)

/-- The insert of `_append`, where a row of the segment, the model and the ref is left as it is. -/
def insertEmbedding (segmentId : UuidValue) (evidenceRef text : String) (t : EmbeddingTable ν) : Except PyError (EmbeddingTable ν) :=
  if t.any fun row => row.segmentId = segmentId ∧ row.model = exactFallbackModel ∧ row.evidenceRef = evidenceRef then .ok t
  else if registered segmentId then .ok (t ++ [⟨segmentId, exactFallbackModel, exactFallbackVersion, evidenceRef, nextSequence t, embedText text⟩])
  else .error .valueError

/-- `_append` -/
def appendEmbedding (segmentId : Json) (evidenceRef text : String) (t : EmbeddingTable ν) : Except PyError (EmbeddingTable ν) :=
  match segmentId with
  | .null => .ok t
  | segmentId =>
    if evidenceRef = "" then .ok t
    else
      match if segmentId.truthy then pgUuid (pyStr segmentId) else none with
      | none => .error .valueError
      | some id => insertEmbedding embedText registered id evidenceRef text t

/-- The text of a payload. -/
def payloadText (ev : SemanticEvent) (key : String) : String := ((ev.payload.get key).str?).getD ""

/-- `apply` -/
def applyEmbedding (ev : SemanticEvent) (t : EmbeddingTable ν) : Except PyError (EmbeddingTable ν) :=
  if ev.eventType = .EntityMentioned then
    if payloadText ev "mention_text" = "" then .ok t
    else
      appendEmbedding embedText registered (ev.payload.get "segment_id") (pyStr (pyOr (ev.payload.get "mention_id") (.str "")))
        (payloadText ev "mention_text") t
  else if ev.eventType = .SemanticAsserted then
    if utterancePredicates.any (pyOr (ev.payload.get "predicate") (ev.payload.get "predicate_code")).isStr &&
        strip (payloadText ev "object_ref") ≠ "" then
      appendEmbedding embedText registered .null ("assert:" ++ toString (ev.seq.getD 0)) (payloadText ev "object_ref") t
    else .ok t
  else .ok t

/-- `EmbeddingProjectionBuilder` -/
def embeddingBuilder : Builder (EmbeddingTable ν) where
  projectionName := "vector"
  prepare := fun _ t => .ok t
  wipe := fun _ _ => .ok []
  apply := fun _ ev t => applyEmbedding embedText registered ev t
  onSkip := fun _ _ t => .ok t
  onPause := fun _ _ t => .ok t
  finalize := fun _ t => .ok t

end

/-! ## Runs beside appends -/

/-- The ledger, the table with its checkpoint and the quarantine, and the drivers. -/
structure Vectors (ν : Type) where
  ledger : Db := {}
  db : Projected (EmbeddingTable ν) := { stores := [] }
  drivers : Nat → Driver := fun _ => {}

inductive VectorAct
  | append (call : Call)
  | quarantine (refs : List String)
  | run (driver : Nat) (wipe forceResume : Bool)

namespace Vectors

variable {ν : Type} (embedText : String → ν) (registered : UuidValue → Bool)

/-- Nothing has run: drivers of any pause policy. -/
def start (policy : Nat → Bool) : Vectors ν := { drivers := fun i => { pausePolicy := policy i } }

def step (w : Vectors ν) : VectorAct → Option (Vectors ν)
  | .append call =>
    let ledger := (Ledger.append w.ledger call).1
    some { w with ledger := ledger, db := { w.db with events := ledger.events } }
  | .quarantine refs => some { w with db := { w.db with quarantined := refs } }
  | .run i wipe forceResume =>
    let r := runLocked (embeddingBuilder embedText registered) wipe forceResume w.db (w.drivers i)
    some { w with db := r.1, drivers := upd w.drivers i r.2.1 }

end Vectors

/-- The table is not wiped. -/
def Live {ν : Type} (_ : Vectors ν) : VectorAct → Prop
  | .run _ wipe forceResume => wipe = false ∧ forceResume = false
  | _ => True

/-- A run that may skip finds nothing quarantined. -/
def Unskipped {ν : Type} (w : Vectors ν) : VectorAct → Prop
  | .run i _ forceResume => (w.drivers i).pausePolicy = true → forceResume = false → w.db.quarantined = []
  | _ => True

/-! ## What the rows say -/

/-- The segment, the ref and the text an event embeds. -/
def unitOf (ev : SemanticEvent) : Option (UuidValue × String × String) :=
  let ref := pyStr (pyOr (ev.payload.get "mention_id") (.str ""))
  let text := payloadText ev "mention_text"
  if ev.eventType = .EntityMentioned ∧ text ≠ "" ∧ (ev.payload.get "segment_id").truthy ∧ ref ≠ "" then
    (pgUuid (pyStr (ev.payload.get "segment_id"))).map fun id => (id, ref, text)
  else none

def unitsOf (events : List SemanticEvent) : List (UuidValue × String × String) := events.filterMap unitOf

def EmbeddingRow.key {ν : Type} (row : EmbeddingRow ν) : UuidValue × String := (row.segmentId, row.evidenceRef)

/-- The unit is of the row's segment and ref. -/
def EmbeddingRow.isOf {ν : Type} (row : EmbeddingRow ν) (u : UuidValue × String × String) : Bool := decide ((u.1, u.2.1) = row.key)

/-- The table has one row for the first text of each segment and ref, in their order and numbered from 1. -/
structure EmbedsFirst {ν : Type} (embedText : String → ν) (events : List SemanticEvent) (t : EmbeddingTable ν) : Prop where
  model : ∀ row ∈ t, row.model = exactFallbackModel
  numbered : t.map (·.sequenceNo) = List.range' 1 t.length
  distinct : (t.map (·.key)).Nodup
  ordered : (t.map (·.key)).Sublist ((unitsOf events).map fun u => (u.1, u.2.1))
  first : ∀ row ∈ t, ∃ u, (unitsOf events).find? row.isOf = some u ∧ row.vector = embedText u.2.2
  complete : ∀ u ∈ unitsOf events, (u.1, u.2.1) ∈ t.map (·.key)

section

variable {ν : Type} {embedText : String → ν} {registered : UuidValue → Bool}

theorem nextSequence_numbered {t : EmbeddingTable ν} (h : t.map (·.sequenceNo) = List.range' 1 t.length) :
    nextSequence t = t.length + 1 := by
  have hmax : ∀ n m, n ≤ m → (List.range' 1 n).foldr max m = m := by
    intro n
    induction n with
    | zero => exact fun m _ => rfl
    | succ n ih =>
      intro m hm
      rw [List.range'_concat, List.foldr_append, List.foldr_cons, List.foldr_nil, Nat.one_mul, Nat.max_eq_right (by omega)]
      exact ih m (by omega)
  have hfold : t.foldr (fun row n => max row.sequenceNo n) 0 = (t.map (·.sequenceNo)).foldr max 0 := List.foldr_map.symm
  rw [nextSequence, hfold, h]
  cases t.length with
  | zero => rfl
  | succ n =>
    rw [List.range'_concat, List.foldr_append, List.foldr_cons, List.foldr_nil, Nat.one_mul, Nat.max_eq_left (Nat.zero_le _), hmax]
    all_goals omega

/-- What an insert does to a table of this model. -/
theorem insert_cases {id : UuidValue} {ref text : String} {t : EmbeddingTable ν} (hm : ∀ row ∈ t, row.model = exactFallbackModel) :
    ((id, ref) ∈ t.map (·.key) ∧ insertEmbedding embedText registered id ref text t = .ok t) ∨
      ((id, ref) ∉ t.map (·.key) ∧ ∀ t', insertEmbedding embedText registered id ref text t = .ok t' →
        t' = t ++ [⟨id, exactFallbackModel, exactFallbackVersion, ref, nextSequence t, embedText text⟩]) := by
  have hiff : (t.any fun row => row.segmentId = id ∧ row.model = exactFallbackModel ∧ row.evidenceRef = ref) = true ↔
      (id, ref) ∈ t.map (·.key) := by
    simp only [List.any_eq_true, decide_eq_true_eq, List.mem_map, EmbeddingRow.key, Prod.mk.injEq]
    exact exists_congr fun row => and_congr_right fun hr => by simp [hm row hr]
  unfold insertEmbedding
  by_cases hin : (id, ref) ∈ t.map (·.key)
  · exact .inl ⟨hin, if_pos (hiff.2 hin)⟩
  · refine .inr ⟨hin, fun t' h => ?_⟩
    rw [if_neg (mt hiff.1 hin)] at h
    split at h <;> cases h
    rfl

/-- An event that has been applied is applied the same way to every table. -/
theorem applied_everywhere {ev : SemanticEvent} {t t' : EmbeddingTable ν} (h : applyEmbedding embedText registered ev t = .ok t')
    (s : EmbeddingTable ν) :
    applyEmbedding embedText registered ev s =
      (unitOf ev).elim (.ok s) fun u => insertEmbedding embedText registered u.1 u.2.1 u.2.2 s := by
  unfold applyEmbedding at h ⊢
  unfold unitOf
  by_cases hm : ev.eventType = .EntityMentioned
  · simp only [if_pos hm] at h ⊢
    by_cases ht : payloadText ev "mention_text" = ""
    · simp [ht]
    · rw [if_neg ht] at h ⊢
      unfold appendEmbedding at h ⊢
      split at h
      · next hnull => simp [hnull, Json.truthy]
      · next hne =>
        by_cases hr : pyStr (pyOr (ev.payload.get "mention_id") (.str "")) = ""
        · simp [hr]
        · rw [if_neg hr] at h
          split at h
          · cases h
          · next id hid =>
            split at hid
            · next htruthy => simp [hm, ht, hr, htruthy, hid]
            · cases hid
  · rw [if_neg hm]
    have hnone : appendEmbedding embedText registered .null ("assert:" ++ toString (ev.seq.getD 0)) (payloadText ev "object_ref") s = .ok s := rfl
    simp only [hnone, ite_self, hm, false_and, if_false, Option.elim_none]

theorem unitsOf_snoc (events : List SemanticEvent) (ev : SemanticEvent) : unitsOf (events ++ [ev]) = unitsOf events ++ (unitOf ev).toList := by
  unfold unitsOf
  rw [List.filterMap_append]
  cases h : unitOf ev <;> simp [h]

theorem EmbedsFirst.step {events : List SemanticEvent} {ev : SemanticEvent} {t t' : EmbeddingTable ν} (h : EmbedsFirst embedText events t)
    (ht : applyEmbedding embedText registered ev t = .ok t') : EmbedsFirst embedText (events ++ [ev]) t' := by
  have heq := ht.symm.trans (applied_everywhere ht t)
  have hunits := unitsOf_snoc events ev
  cases hu : unitOf ev with
  | none =>
    rw [hu, Option.toList_none, List.append_nil] at hunits
    rw [hu, Option.elim_none, Except.ok.injEq] at heq
    subst heq
    exact ⟨h.model, h.numbered, h.distinct, hunits ▸ h.ordered, hunits ▸ h.first, hunits ▸ h.complete⟩
  | some u =>
    rw [hu, Option.toList_some] at hunits
    rw [hu, Option.elim_some] at heq
    -- the rows there keep their units
    have hfirst : ∀ row ∈ t, ∃ v, (unitsOf (events ++ [ev])).find? row.isOf = some v ∧ row.vector = embedText v.2.2 := by
      intro row hrow
      obtain ⟨v, hv, hvec⟩ := h.first row hrow
      exact ⟨v, by rw [hunits, List.find?_append, hv, Option.some_or], hvec⟩
    rcases @insert_cases _ embedText registered u.1 u.2.1 u.2.2 t h.model with ⟨hin, hok⟩ | ⟨hout, hnew⟩
    · rw [hok, Except.ok.injEq] at heq
      subst heq
      refine ⟨h.model, h.numbered, h.distinct, ?_, hfirst, fun v hv => ?_⟩
      · rw [hunits, List.map_append]
        exact h.ordered.trans (List.sublist_append_left _ _)
      · rw [hunits] at hv
        rcases List.mem_append.1 hv with hv | hv
        · exact h.complete v hv
        · rwa [List.mem_singleton.1 hv]
    · rw [hnew t' heq.symm, nextSequence_numbered h.numbered]
      refine ⟨fun row hr => ?_, ?_, ?_, ?_, fun row hr => ?_, fun v hv => ?_⟩
      · rcases List.mem_append.1 hr with hr | hr
        · exact h.model row hr
        · rw [List.mem_singleton.1 hr]
      · rw [List.map_append, h.numbered, List.length_append, List.length_singleton, List.range'_concat]
        simp [Nat.add_comm]
      · rw [List.map_append, List.nodup_append]
        refine ⟨h.distinct, List.nodup_singleton _, fun a ha b hb => ?_⟩
        rw [List.map_singleton, List.mem_singleton] at hb
        intro hab
        rw [hab, hb] at ha
        exact hout ha
      · rw [List.map_append, hunits, List.map_append]
        exact h.ordered.append (List.Sublist.refl _)
      · rcases List.mem_append.1 hr with hr | hr
        · exact hfirst row hr
        · rw [List.mem_singleton.1 hr]
          refine ⟨u, ?_, rfl⟩
          rw [hunits, List.find?_append, List.find?_eq_none.2, Option.none_or]
          · simp [EmbeddingRow.isOf, EmbeddingRow.key]
          · intro v hv hof
            have hthere := h.complete v hv
            rw [of_decide_eq_true hof] at hthere
            exact hout hthere
      · rw [hunits] at hv
        rw [List.map_append]
        rcases List.mem_append.1 hv with hv | hv
        · exact List.mem_append_left _ (h.complete v hv)
        · rw [List.mem_singleton.1 hv]
          exact List.mem_append_right _ (List.mem_singleton_self _)

theorem EmbedsFirst.empty : EmbedsFirst embedText [] ([] : EmbeddingTable ν) where
  model := by simp
  numbered := rfl
  distinct := .nil
  ordered := .slnil
  first := by simp
  complete := by simp [unitsOf]

end

/-! ## The fold of a log -/

section

variable {ν : Type} (embedText : String → ν) (registered : UuidValue → Bool)

/-- The event of a row, applied. -/
def embedRow (t : EmbeddingTable ν) (row : EventRow) : Except PyError (EmbeddingTable ν) := applyEmbedding embedText registered (upcast row) t

/-- The events of a log, applied in turn. -/
def embedAll (rows : List EventRow) (t : EmbeddingTable ν) : Except PyError (EmbeddingTable ν) := rows.foldlM (embedRow embedText registered) t

end

section

variable {ν : Type} {embedText : String → ν} {registered : UuidValue → Bool}

theorem embedAll_append (rows rows' : List EventRow) (t : EmbeddingTable ν) :
    embedAll embedText registered (rows ++ rows') t = embedAll embedText registered rows t >>= embedAll embedText registered rows' :=
  List.foldlM_append

theorem embedAll_cons (row : EventRow) (rows : List EventRow) (t : EmbeddingTable ν) :
    embedAll embedText registered (row :: rows) t =
      applyEmbedding embedText registered (upcast row) t >>= embedAll embedText registered rows :=
  List.foldlM_cons

theorem embedAll_first {rows : List EventRow} : ∀ {t : EmbeddingTable ν}, embedAll embedText registered rows [] = .ok t →
    EmbedsFirst embedText (rows.map upcast) t := by
  induction rows using List.reverseRecOn with
  | nil =>
    intro t h
    cases h
    exact .empty
  | append_singleton rows row ih =>
    intro t h
    rw [embedAll_append] at h
    obtain ⟨t₁, hrows, hrow⟩ := bind_ok h
    rw [embedAll_cons] at hrow
    obtain ⟨t₂, happly, hnil⟩ := bind_ok hrow
    cases hnil
    rw [List.map_append]
    exact (ih hrows).step happly

/-- An event that is in the fold has its row there. -/
theorem embedRow_settles : Settles (embedRow embedText registered) [] := by
  intro rows t h row hrow
  have hfirst : EmbedsFirst embedText (rows.map upcast) t := embedAll_first h
  obtain ⟨low, high, rfl⟩ := List.append_of_mem hrow
  -- where the event was applied
  change embedAll embedText registered (low ++ row :: high) [] = .ok t at h
  rw [embedAll_append] at h
  obtain ⟨t₁, -, hhigh⟩ := bind_ok h
  rw [embedAll_cons] at hhigh
  obtain ⟨t₂, happly, -⟩ := bind_ok hhigh
  change applyEmbedding embedText registered (upcast row) t = .ok t
  rw [applied_everywhere happly t]
  cases hu : unitOf (upcast row) with
  | none => rfl
  | some u =>
    have hin := hfirst.complete u (List.mem_filterMap.2 ⟨upcast row, List.mem_map_of_mem hrow, hu⟩)
    rcases @insert_cases _ embedText registered u.1 u.2.1 u.2.2 t hfirst.model with ⟨-, hok⟩ | ⟨hout, -⟩
    · exact hok
    · exact absurd hin hout

/-- Events only add rows. -/
theorem embedAll_grows {rows : List EventRow} : ∀ {t t' : EmbeddingTable ν}, (∀ row ∈ t, row.model = exactFallbackModel) →
    embedAll embedText registered rows t = .ok t' → t <+: t' := by
  induction rows with
  | nil =>
    intro t t' _ h
    cases h
    exact List.prefix_rfl
  | cons row rows ih =>
    intro t t' hm h
    rw [embedAll_cons] at h
    obtain ⟨t₁, happly, hrows⟩ := bind_ok h
    have heq := happly.symm.trans (applied_everywhere happly t)
    cases hu : unitOf (upcast row) with
    | none =>
      rw [hu, Option.elim_none, Except.ok.injEq] at heq
      exact ih hm (heq ▸ hrows)
    | some u =>
      rw [hu, Option.elim_some] at heq
      rcases @insert_cases _ embedText registered u.1 u.2.1 u.2.2 t hm with ⟨-, hok⟩ | ⟨-, hnew⟩
      · rw [hok, Except.ok.injEq] at heq
        exact ih hm (heq ▸ hrows)
      · have ht₁ := hnew t₁ heq.symm
        have hm₁ : ∀ row ∈ t₁, row.model = exactFallbackModel := by
          intro row hr
          rw [ht₁] at hr
          rcases List.mem_append.1 hr with hr | hr
          · exact hm row hr
          · rw [List.mem_singleton.1 hr]
        exact (ht₁ ▸ List.prefix_append t _).trans (ih hm₁ hrows)

/-! ## What a run applies -/

/-- A run that may skip has nothing to skip. -/
def skipsNothing (poison : Bool) (quarantined : List String) (d : Driver) : Prop := poison = true → d.pausePolicy = true → quarantined = []

/-- What the loop of a run leaves. -/
structure Looped (embedText : String → ν) (registered : UuidValue → Bool) (quarantined : List String) (poison : Bool) (n : Nat)
    (rows : List EventRow) (d : Driver) (t : EmbeddingTable ν) (r : Driver × Except PyError (EmbeddingTable ν)) : Prop where
  bounded : ∀ m, d.appliedSeq ≤ m → (∀ row ∈ rows, row.seq ≤ m) → r.1.appliedSeq ≤ m
  applied : ∀ t', r.2 = .ok t' → ∃ rows' ⊆ rows, embedAll embedText registered rows' t = .ok t'
  all : ∀ t', r.2 = .ok t' → r.1.paused = false → skipsNothing poison quarantined d →
    embedAll embedText registered (rows.filter fun row => n < row.seq) t = .ok t'

theorem embeddingLoop {quarantined : List String} {poison : Bool} {n : Nat} {rows : List EventRow} : ∀ {d : Driver} {t : EmbeddingTable ν},
    Looped embedText registered quarantined poison n rows d t
      (replayLoop (embeddingBuilder embedText registered) quarantined poison n rows d t) := by
  induction rows with
  | nil => exact fun {d t} => ⟨fun _ h _ => h, fun t' h => ⟨[], List.Subset.refl _, h⟩, fun t' h _ _ => h⟩
  | cons row rows ih =>
    intro d t
    rw [replayLoop]
    cases hf : d.fold (upcast row) with
    | error e => exact ⟨fun _ h _ => h, by simp, by simp⟩
    | ok d₁ =>
      obtain ⟨happ, -⟩ := fold_applied hf
      have hpol := Driver.fold_policy hf
      have hseq : (upcast row).seq.getD 0 = row.seq := rfl
      simp only [hseq]
      by_cases hle : row.seq ≤ n
      · -- applied in a prior run
        rw [if_pos hle]
        have h := @ih d₁ t
        refine ⟨fun m hm hr => h.bounded m (happ ▸ hm) fun r hr' => hr r (List.mem_cons_of_mem _ hr'),
          fun t' ht => ?_, fun t' ht hp hs => ?_⟩
        · obtain ⟨rows', hsub, hok⟩ := h.applied t' ht
          exact ⟨rows', fun r hr' => List.mem_cons_of_mem _ (hsub hr'), hok⟩
        · rw [List.filter_cons_of_neg (by simpa using hle)]
          exact h.all t' ht hp (by rwa [skipsNothing, hpol])
      · rw [if_neg hle]
        have hlt : n < row.seq := Nat.lt_of_not_le hle
        split
        · -- the run is paused
          refine ⟨fun m _ hr => hr row List.mem_cons_self, fun t' ht => ?_, fun t' ht hp => Bool.noConfusion hp⟩
          cases ht
          exact ⟨[], List.nil_subset _, rfl⟩
        · split
          · next hskip =>
            have h := @ih { d₁ with eventsSeen := d₁.eventsSeen + 1, skipped := d₁.skipped + 1, appliedSeq := row.seq } t
            refine ⟨fun m _ hr => h.bounded m (hr row List.mem_cons_self) fun r hr' => hr r (List.mem_cons_of_mem _ hr'),
              fun t' ht => ?_, fun t' ht hp hs => ?_⟩
            · obtain ⟨rows', hsub, hok⟩ := h.applied t' ht
              exact ⟨rows', fun r hr' => List.mem_cons_of_mem _ (hsub hr'), hok⟩
            · -- with nothing quarantined nothing is skipped
              rw [hs hskip.2.2 (hpol ▸ hskip.2.1)] at hskip
              have hnone : (classify (upcast row) []).decision ≠ .skip := by
                unfold classify
                split
                · simp
                · simp [referencesQuarantine]
              exact absurd hskip.1 hnone
          · cases ha : applyEmbedding embedText registered (upcast row) t with
            | error e =>
              have hb : (embeddingBuilder embedText registered).apply
                  { d₁ with eventsSeen := d₁.eventsSeen + 1, appliedSeq := row.seq } (upcast row) t = .error e := ha
              rw [hb]
              exact ⟨fun m _ hr => hr row List.mem_cons_self, by simp, by simp⟩
            | ok t₁ =>
              have hb : (embeddingBuilder embedText registered).apply
                  { d₁ with eventsSeen := d₁.eventsSeen + 1, appliedSeq := row.seq } (upcast row) t = .ok t₁ := ha
              rw [hb]
              have h := @ih { d₁ with eventsSeen := d₁.eventsSeen + 1, appliedSeq := row.seq } t₁
              refine ⟨fun m _ hr => h.bounded m (hr row List.mem_cons_self) fun r hr' => hr r (List.mem_cons_of_mem _ hr'),
                fun t' ht => ?_, fun t' ht hp hs => ?_⟩
              · obtain ⟨rows', hsub, hok⟩ := h.applied t' ht
                refine ⟨row :: rows', List.cons_subset_cons row hsub, ?_⟩
                rw [embedAll_cons, ha]
                exact hok
              · rw [List.filter_cons_of_pos (by simpa using hlt), embedAll_cons, ha]
                refine h.all t' ht hp ?_
                exact fun hpo hpp => hs hpo (hpol ▸ hpp)

theorem newCheckpoint_running {cp : ProjectionCheckpoint} {d : Driver} (h : (newCheckpoint cp d).pauseReason = none) : d.paused = false := by
  cases hp : d.paused with
  | true => simp [newCheckpoint, hp, ProjectionCheckpoint.paused] at h
  | false => rfl

/-- The table a run begins with. -/
def openTable (fresh : Bool) (t : EmbeddingTable ν) : EmbeddingTable ν := if fresh then [] else t

/-- What a run that commits has put in the table. -/
structure Filled (embedText : String → ν) (registered : UuidValue → Bool) (wipe forceResume : Bool) (db : Projected (EmbeddingTable ν))
    (d d' : Driver) (t : EmbeddingTable ν) : Prop where
  running : ((db.checkpoints "vector").getD {}).pauseReason = none ∨ forceResume = true
  applied : ∃ rows ⊆ loadEvents db.events 0, embedAll embedText registered rows (openTable (wipe || forceResume) db.stores) = .ok t
  all : d'.paused = false → skipsNothing (!forceResume) db.quarantined d →
    embedAll embedText registered ((loadEvents db.events 0).filter fun row => startSeq "vector" wipe forceResume db < row.seq)
      (openTable (wipe || forceResume) db.stores) = .ok t

/-- A run leaves the database and is paused or raises, or it commits. -/
structure VectorRun (embedText : String → ν) (registered : UuidValue → Bool) (wipe forceResume : Bool) (db : Projected (EmbeddingTable ν))
    (d : Driver) (r : Projected (EmbeddingTable ν) × Driver × Except PyError BuildReport) : Prop where
  bounded : ∀ m, d.appliedSeq ≤ m → db.applied "vector" ≤ m → tailOf db.events ≤ m → r.2.1.appliedSeq ≤ m
  outcome : (r.1 = db ∧ ∀ report, r.2.2 = .ok report → report.paused = true) ∨
    ∃ cp t, r.1 = { db with stores := t, checkpoints := upd db.checkpoints "vector" (some cp) } ∧
      cp.appliedSeq = r.2.1.appliedSeq ∧ (cp.pauseReason = none → r.2.1.paused = false) ∧
      (∀ report, r.2.2 = .ok report → report.paused = r.2.1.paused) ∧
      Filled embedText registered wipe forceResume db d r.2.1 t

theorem vectorRun {wipe forceResume : Bool} {db : Projected (EmbeddingTable ν)} {d : Driver} :
    VectorRun embedText registered wipe forceResume db d (runLocked (embeddingBuilder embedText registered) wipe forceResume db d) := by
  have hname : (embeddingBuilder embedText registered).projectionName = "vector" := rfl
  have hpoison : (embeddingBuilder embedText registered).poisonEnabled = true := rfl
  unfold runLocked
  simp only [hname, hpoison, Bool.true_and]
  split
  · refine ⟨fun m _ h _ => h, .inl ⟨rfl, fun report h => ?_⟩⟩
    cases h
    rfl
  · have hstart : (if wipe = true ∨ forceResume = true then 0 else if wipe = true then 0 else ((db.checkpoints "vector").getD {}).appliedSeq) =
        startSeq "vector" wipe forceResume db := by
      unfold startSeq
      split
      · rfl
      · rename_i hnot
        rw [if_neg fun hw => hnot (.inl hw)]
        rfl
    have hopen : ∀ d₀, openStore (embeddingBuilder embedText registered) (wipe || forceResume) d₀ db.stores =
        .ok (openTable (wipe || forceResume) db.stores) := fun d₀ => by cases wipe || forceResume <;> rfl
    simp only [hopen, hstart]
    generalize hd : ({ d with paused := false, pauseReason := none, eventsSeen := 0, skipped := 0, state := {} } : Driver) = d₀
    have happ : d₀.appliedSeq = d.appliedSeq := by rw [← hd]
    have hpol : d₀.pausePolicy = d.pausePolicy := by rw [← hd]
    have h := @embeddingLoop _ embedText registered db.quarantined (!forceResume) (startSeq "vector" wipe forceResume db)
      (loadEvents db.events 0) d₀ (openTable (wipe || forceResume) db.stores)
    generalize replayLoop (embeddingBuilder embedText registered) db.quarantined (!forceResume) (startSeq "vector" wipe forceResume db)
      (loadEvents db.events 0) d₀ (openTable (wipe || forceResume) db.stores) = res at h ⊢
    have hbound : ∀ m, d.appliedSeq ≤ m → db.applied "vector" ≤ m → tailOf db.events ≤ m → res.1.appliedSeq ≤ m :=
      fun m hm _ ht => h.bounded m (happ ▸ hm) fun r hr => (le_tailOf (mem_loadEvents.1 hr).1).trans ht
    obtain ⟨d', e | t⟩ := res
    · exact ⟨hbound, .inl ⟨rfl, by simp⟩⟩
    · refine ⟨hbound, .inr ⟨_, t, rfl, newCheckpoint_applied _ _, newCheckpoint_running, fun report hr => ?_, ?_, h.applied t rfl,
        fun hp hs => h.all t rfl hp ?_⟩⟩
      · cases hr
        rfl
      · rename_i hrun
        rw [not_and_or] at hrun
        simpa using hrun
      · rwa [skipsNothing, hpol]

end

/-! ## Every sequence of runs -/

section

variable {ν : Type} {embedText : String → ν} {registered : UuidValue → Bool} {policy : Nat → Bool}

/-- The rows are of events of the log. -/
structure VectorsSound (embedText : String → ν) (registered : UuidValue → Bool) (w : Vectors ν) : Prop where
  published : w.db.events = w.ledger.events
  seen : ∃ rows ⊆ w.ledger.events, embedAll embedText registered rows [] = .ok w.db.stores

theorem VectorsSound.model {w : Vectors ν} (h : VectorsSound embedText registered w) : ∀ row ∈ w.db.stores, row.model = exactFallbackModel := by
  obtain ⟨rows, -, hrows⟩ := h.seen
  exact (embedAll_first hrows).model

theorem VectorsSound.start : VectorsSound embedText registered (Vectors.start policy) := ⟨rfl, [], List.Subset.refl _, rfl⟩

theorem VectorsSound.step {w w' : Vectors ν} {a : VectorAct} (h : VectorsSound embedText registered w)
    (hs : w.step embedText registered a = some w') : VectorsSound embedText registered w' ∧ (Live w a → w.db.stores <+: w'.db.stores) := by
  obtain ⟨rows, hsub, hrows⟩ := h.seen
  cases a with
  | append call =>
    cases hs
    obtain ⟨new, hev, -⟩ := append_rows w.ledger call
    refine ⟨⟨rfl, rows, fun row hr => ?_, hrows⟩, fun _ => List.prefix_rfl⟩
    dsimp only
    rw [hev]
    exact List.mem_append_left _ (hsub hr)
  | quarantine refs =>
    cases hs
    exact ⟨⟨h.published, rows, hsub, hrows⟩, fun _ => List.prefix_rfl⟩
  | run i wipe forceResume =>
    have hrun := (@vectorRun _ embedText registered wipe forceResume w.db (w.drivers i)).outcome
    cases hs
    dsimp only
    rcases hrun with ⟨hdb, -⟩ | ⟨cp, t, hdb, -, -, -, hfilled⟩ <;> rw [hdb]
    · exact ⟨⟨h.published, rows, hsub, hrows⟩, fun _ => List.prefix_rfl⟩
    · obtain ⟨rows', hsub', hrows'⟩ := hfilled.applied
      have hlog : rows' ⊆ w.ledger.events := fun row hr => h.published ▸ (mem_loadEvents.1 (hsub' hr)).1
      refine ⟨⟨h.published, ?_⟩, fun hlive => ?_⟩
      · cases hfresh : (wipe || forceResume) with
        | true =>
          rw [hfresh] at hrows'
          exact ⟨rows', hlog, hrows'⟩
        | false =>
          rw [hfresh] at hrows'
          refine ⟨rows ++ rows', List.append_subset.2 ⟨hsub, hlog⟩, ?_⟩
          rw [embedAll_append, hrows]
          exact hrows'
      · rw [hlive.1, hlive.2] at hrows'
        exact embedAll_grows h.model hrows'

/-- A mention of a segment. -/
def mentionOf (mention text : String) : Call :=
  one .EntityMentioned [("source_id", .str "s"), ("segment_id", .str "00000000000000000000000000000000"), ("mention_id", .str mention),
    ("mention_text", .str text)]

/-- The rows are those of the log up to a point the checkpoint has not passed, unless the projection is paused. -/
structure VectorsBuilt (embedText : String → ν) (registered : UuidValue → Bool) (w : Vectors ν) : Prop where
  stored : Stored w.ledger
  published : w.db.events = w.ledger.events
  drivers : ∀ i, (w.drivers i).appliedSeq ≤ tailOf w.ledger.events
  applied : w.db.applied "vector" ≤ tailOf w.ledger.events
  table : ((w.db.checkpoints "vector").getD {}).pauseReason = none → ∃ pre post, w.ledger.events = pre ++ post ∧
    embedAll embedText registered pre [] = .ok w.db.stores ∧ ∀ row ∈ post, w.db.applied "vector" < row.seq

theorem VectorsBuilt.start : VectorsBuilt embedText registered (Vectors.start policy) where
  stored := .empty
  published := rfl
  drivers := fun _ => Nat.zero_le _
  applied := Nat.zero_le _
  table := fun _ => ⟨[], [], rfl, rfl, by simp⟩

/-- A log in seq order, cut at a seq. -/
theorem cut_at {rows : List EventRow} (ho : (rows.map (·.seq)).Pairwise (· < ·)) (n : Nat) :
    ∃ low, rows = low ++ rows.filter (fun row => n < row.seq) := by
  induction rows with
  | nil => exact ⟨[], rfl⟩
  | cons row rows ih =>
    rw [List.map_cons, List.pairwise_cons] at ho
    by_cases hlt : n < row.seq
    · refine ⟨[], ?_⟩
      rw [List.nil_append, List.filter_eq_self.2]
      intro r hr
      rcases List.mem_cons.1 hr with rfl | hr
      · simpa using hlt
      · have := ho.1 r.seq (List.mem_map_of_mem hr)
        simpa using Nat.lt_trans hlt this
    · obtain ⟨low, hlow⟩ := ih ho.2
      refine ⟨row :: low, ?_⟩
      rw [List.filter_cons_of_neg (by simpa using hlt), List.cons_append, ← hlow]

/-- What a run of the whole rest leaves is the fold of the log. -/
theorem VectorsBuilt.catchUp {w : Vectors ν} (h : VectorsBuilt embedText registered w) {i : Nat} {wipe forceResume : Bool} {d' : Driver}
    {t : EmbeddingTable ν} (hfilled : Filled embedText registered wipe forceResume w.db (w.drivers i) d' t) (hp : d'.paused = false)
    (hu : Unskipped w (.run i wipe forceResume)) :
    embedAll embedText registered w.ledger.events [] = .ok t := by
  have hall := hfilled.all hp fun hpoison hpolicy => hu hpolicy (by simpa using hpoison)
  rw [h.published, loadEvents_ordered h.stored.ordered h.stored.positive] at hall
  cases hfresh : (wipe || forceResume) with
  | true =>
    have hstart : startSeq "vector" wipe forceResume w.db = 0 := if_pos (by simpa using hfresh)
    rw [hfresh, hstart, List.filter_eq_self.2 fun row hr => by simpa using h.stored.positive row hr] at hall
    exact hall
  | false =>
    obtain ⟨hwipe, hforce⟩ := Bool.or_eq_false_iff.1 hfresh
    obtain ⟨pre, post, hev, hpre, hpost⟩ := h.table (hfilled.running.resolve_right (by simp [hforce]))
    have hstart : startSeq "vector" wipe forceResume w.db = w.db.applied "vector" := if_neg (by simp [hwipe, hforce])
    have hord := h.stored.ordered
    rw [hev, List.map_append] at hord
    obtain ⟨low, hlow⟩ := cut_at (List.pairwise_append.1 hord).1 (w.db.applied "vector")
    have hrest : post.filter (fun row => w.db.applied "vector" < row.seq) = post := List.filter_eq_self.2 fun row hr => by simpa using hpost row hr
    rw [hfresh, hstart, hev, List.filter_append, hrest] at hall
    rw [hlow] at hpre
    rw [hev, hlow, List.append_assoc]
    exact (embedRow_settles.catchUp hpre).symm.trans hall

theorem VectorsBuilt.step {w w' : Vectors ν} {a : VectorAct} (h : VectorsBuilt embedText registered w) (hu : Unskipped w a)
    (hs : w.step embedText registered a = some w') : VectorsBuilt embedText registered w' := by
  cases a with
  | append call =>
    cases hs
    obtain ⟨new, hev, -, -, hnew⟩ := append_rows w.ledger call
    have hmono : tailOf w.ledger.events ≤ tailOf (Ledger.append w.ledger call).1.events := by
      rw [hev]
      exact tailOf_append_le ..
    refine ⟨h.stored.append call, rfl, fun i => (h.drivers i).trans hmono, h.applied.trans hmono, fun hrunning => ?_⟩
    obtain ⟨pre, post, hsplit, ht, hpost⟩ := h.table hrunning
    refine ⟨pre, post ++ new, by simp [hev, hsplit], ht, fun r hr => ?_⟩
    rcases List.mem_append.1 hr with hr | hr
    · exact hpost r hr
    · have htail := h.stored.tail_lt
      have happ := h.applied
      have := (hnew r hr).1
      change w.db.applied "vector" < r.seq
      omega
  | quarantine refs =>
    cases hs
    exact ⟨h.stored, h.published, h.drivers, h.applied, h.table⟩
  | run i wipe forceResume =>
    have hrun := @vectorRun _ embedText registered wipe forceResume w.db (w.drivers i)
    have hbound := hrun.bounded (tailOf w.ledger.events) (h.drivers i) h.applied (by rw [h.published])
    cases hs
    have hdrivers : ∀ j, (upd w.drivers i (runLocked (embeddingBuilder embedText registered) wipe forceResume w.db (w.drivers i)).2.1 j).appliedSeq ≤
        tailOf w.ledger.events := fun j => by
      by_cases hj : j = i
      · subst hj
        rw [upd_self]
        exact hbound
      · rw [upd_ne _ _ hj]
        exact h.drivers j
    rcases hrun.outcome with ⟨hdb, -⟩ | ⟨cp, t, hdb, hcp, hrunning, -, hfilled⟩
    · refine ⟨h.stored, ?_, hdrivers, ?_, ?_⟩ <;> simp only [hdb]
      · exact h.published
      · exact h.applied
      · exact h.table
    · refine ⟨h.stored, ?_, hdrivers, ?_, ?_⟩ <;> simp only [hdb]
      · exact h.published
      · simpa [Projected.applied, hcp] using hbound
      · intro hnone
        simp only [upd_self, Option.getD_some] at hnone
        exact ⟨w.ledger.events, [], by simp, h.catchUp hfilled (hrunning hnone) hu, by simp⟩

/-- **However the log has been applied, a run that ends unpaused leaves the rows of the whole log**:
after any appends and any runs, incremental, wiping, paused, forced or failed, of any drivers, the
table has the first text of each segment and mention, if nothing was quarantined when a run that may
skip began. -/
theorem vectors_replayed {w : Vectors ν} (hw : Run (Vectors.step embedText registered) Unskipped (Vectors.start policy) w) {i : Nat}
    {wipe forceResume : Bool} (hu : Unskipped w (.run i wipe forceResume)) {report : BuildReport}
    (hr : (runLocked (embeddingBuilder embedText registered) wipe forceResume w.db (w.drivers i)).2.2 = .ok report)
    (hp : report.paused = false) :
    EmbedsFirst embedText (w.ledger.events.map upcast)
      (runLocked (embeddingBuilder embedText registered) wipe forceResume w.db (w.drivers i)).1.stores := by
  have h : VectorsBuilt embedText registered w := hw.inv _ .start fun _ _ _ hi hok hs => hi.step hok hs
  rcases (@vectorRun _ embedText registered wipe forceResume w.db (w.drivers i)).outcome with
    ⟨-, hpaused⟩ | ⟨cp, t, hdb, -, -, hreport, hfilled⟩
  · rw [hpaused report hr] at hp
    cases hp
  · rw [hdb]
    exact embedAll_first (h.catchUp hfilled ((hreport report hr).symm.trans hp) hu)

theorem ended {x : Except PyError BuildReport} (h : x.toOption.map (·.paused) = some false) :
    ∃ report, x = .ok report ∧ report.paused = false := by
  cases x with
  | error e => cases h
  | ok report => exact ⟨report, rfl, Option.some.inj h⟩

/-- A mention is embedded, and a driver that has not run applies the log once more. -/
theorem vectors_replayed_again : ∃ w : Vectors Nat, w.ledger.events.length = 2 ∧ w.db.stores.length = 1 ∧
    EmbedsFirst String.length (w.ledger.events.map upcast)
      (runLocked (embeddingBuilder String.length fun _ => true) false false w.db (w.drivers 1)).1.stores :=
  ⟨_, by decide +kernel, by decide +kernel,
    @vectors_replayed Nat String.length (fun _ => true) (fun _ => true) _
      (.step (a := .append (mentionOf "n" "Mary"))
        (.step (a := .run 0 false false) (.step (a := .append (mentionOf "m" "Ada")) .refl trivial rfl) (fun _ _ => by decide +kernel) rfl)
        trivial rfl)
      1 false false (fun _ _ => by decide +kernel) _ (ended (by decide +kernel)).choose_spec.1 (ended (by decide +kernel)).choose_spec.2⟩

end

end Umd.Projections
