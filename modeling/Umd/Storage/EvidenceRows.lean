import Umd.Lib.JsonRead
import Umd.Sandbox.Fields
/-!
# Evidence rows

`PostgresEvidenceRepository.record` inserts a row where the table has none of its
source, locator, kind and config digest. A batch is kept when the records that share
these have one quality payload, the stored one where there is one (`kept_iff`).
-/

namespace Umd.Repositories

open Umd.Lib Umd.Sandbox

inductive EvidenceKind where
  | textSpan | subtitleEvent | audioInterval | videoInterval | frame | panel | pageRegion | ocrRegion | speakerObservation
  | faceObservation | objectObservation | music | soundEvent | sceneBoundary | layout | visualRelationship | timing | metadata
deriving DecidableEq

/-- What `ge=0.0, le=1.0` admits. -/
def inUnit : Number → Bool
  | .dec m e => decide (0 ≤ m) && decide (m ≤ 10 ^ e)
  | _ => false

/-- A confidence that is written. -/
structure Confidence where
  value : PyReal
  unit : inUnit value.number = true

theorem inUnit_two_tenths : inUnit (PyReal.ofNumber (.dec 2 1)).number = true := rfl

theorem inUnit_three_tenths : inUnit (PyReal.ofNumber (.dec 3 1)).number = true := rfl

theorem inUnit_nine_tenths : inUnit (PyReal.ofNumber (.dec 9 1)).number = true := rfl

theorem inUnit_one : inUnit (PyReal.ofNumber (.dec 10 1)).number = true := rfl

/-- `Evidence`, whose id is drawn when it is made. -/
structure Evidence where
  sourceId : String
  segmentId : Option String := none
  evidenceKind : EvidenceKind := .textSpan
  locator : Option String := none
  language : Option String := none
  track : Option String := none
  rawRef : Option String := none
  normalizedRef : Option String := none
  artifactRef : Option String := none
  extractionStage : Option String := none
  toolVersions : Dict := []
  configDigest : Option String := none
  confidence : Option Confidence := none
  quality : Dict := []

/-- A row of `evidence`. -/
structure EvidenceRow where
  sourceId : String
  segmentId : Option String
  evidenceKind : EvidenceKind
  locator : String
  language : Option String
  track : Option String
  rawRef : Option String
  normalizedRef : Option String
  artifactRef : Option String
  extractionStage : Option String
  toolVersions : Json
  configDigest : String
  confidence : Option Confidence
  quality : Json

abbrev Identity := String × String × EvidenceKind × String

/-- `dedup_key`. -/
def Evidence.identity (ev : Evidence) : Identity :=
  (ev.sourceId, ev.locator.getD "", ev.evidenceKind, ev.configDigest.getD "")

/-- `uq_evidence_identity`. -/
def EvidenceRow.identity (r : EvidenceRow) : Identity := (r.sourceId, r.locator, r.evidenceKind, r.configDigest)

/-- A dictionary as `JSONB` keeps it. -/
def jsonb (d : Dict) : Json := (Json.obj d).norm

def rowOf (ev : Evidence) : EvidenceRow where
  sourceId := ev.sourceId
  segmentId := ev.segmentId
  evidenceKind := ev.evidenceKind
  locator := ev.locator.getD ""
  language := ev.language
  track := ev.track
  rawRef := ev.rawRef
  normalizedRef := ev.normalizedRef
  artifactRef := ev.artifactRef
  extractionStage := ev.extractionStage
  toolVersions := jsonb ev.toolVersions
  configDigest := ev.configDigest.getD ""
  confidence := ev.confidence
  quality := jsonb ev.quality

@[simp] theorem rowOf_identity (ev : Evidence) : (rowOf ev).identity = ev.identity := rfl
@[simp] theorem rowOf_quality (ev : Evidence) : (rowOf ev).quality = jsonb ev.quality := rfl

/-- The table `evidence`, with its unique constraint. -/
structure EvidenceTable where
  rows : List EvidenceRow
  unique : (rows.map EvidenceRow.identity).Nodup

namespace EvidenceTable

def empty : EvidenceTable := ⟨[], .nil⟩

/-- `INSERT ... ON CONFLICT DO NOTHING`, and whether a row was inserted. -/
def insert (t : EvidenceTable) (ev : Evidence) : EvidenceTable × Bool :=
  if h : ev.identity ∈ t.rows.map EvidenceRow.identity then (t, false)
  else (⟨rowOf ev :: t.rows, List.nodup_cons.2 ⟨h, t.unique⟩⟩, true)

end EvidenceTable

/-- `RecordedEvidenceBatch`, but for the ids. -/
structure RecordedEvidenceBatch where
  created : List Evidence := []
  existing : List Evidence := []
  total : Nat := 0

def recordFrom (t : EvidenceTable) (seen : List Identity) (batch : RecordedEvidenceBatch) :
    List Evidence → EvidenceTable × RecordedEvidenceBatch
  | [] => (t, batch)
  | ev :: evs =>
    if ev.identity ∈ seen then recordFrom t seen { batch with existing := batch.existing ++ [ev] } evs
    else
      match t.insert ev with
      | (t', true) => recordFrom t' (ev.identity :: seen) { batch with created := batch.created ++ [ev] } evs
      | (t', false) => recordFrom t' (ev.identity :: seen) { batch with existing := batch.existing ++ [ev] } evs

/-- `PostgresEvidenceRepository.record`. -/
def record (t : EvidenceTable) (records : List Evidence) : EvidenceTable × RecordedEvidenceBatch :=
  recordFrom t [] { total := records.length } records

/-- Several calls of `record`. -/
def recordAll (t : EvidenceTable) : List (List Evidence) → EvidenceTable × List RecordedEvidenceBatch
  | [] => (t, [])
  | records :: batches =>
    let (t₁, batch) := record t records
    let (t₂, rest) := recordAll t₁ batches
    (t₂, batch :: rest)

/-! ## What is stored -/

/-- A row under the record's identity has its quality payload. -/
def Stored (t : EvidenceTable) (ev : Evidence) : Prop := ∃ r ∈ t.rows, r.identity = ev.identity ∧ r.quality = jsonb ev.quality

/-- Every record is stored, and so is every one that is reported to exist. -/
def Kept (t : EvidenceTable) (batches : List (List Evidence)) : Prop :=
  (∀ ev ∈ batches.flatten, Stored (recordAll t batches).1 ev) ∧
    ∀ batch ∈ (recordAll t batches).2, ∀ ev ∈ batch.existing, Stored (recordAll t batches).1 ev

/-- Records under one identity have one quality payload, the stored one where there is one. -/
def Agree (t : EvidenceTable) (evs : List Evidence) : Prop :=
  ∀ ev ∈ evs, (∀ r ∈ t.rows, r.identity = ev.identity → r.quality = jsonb ev.quality) ∧
    ∀ ev' ∈ evs, ev'.identity = ev.identity → jsonb ev'.quality = jsonb ev.quality

/-- What recording records does to the table. -/
structure Grows (t t' : EvidenceTable) (evs : List Evidence) : Prop where
  kept : ∀ r ∈ t.rows, r ∈ t'.rows
  new : ∀ r ∈ t'.rows, r ∈ t.rows ∨ ∃ ev ∈ evs, r = rowOf ev
  claimed : ∀ ev ∈ evs, ∃ r ∈ t'.rows, r.identity = ev.identity

theorem Grows.refl (t : EvidenceTable) : Grows t t [] := ⟨fun _ h => h, fun _ => .inl, fun _ h => absurd h List.not_mem_nil⟩

theorem Grows.trans {t t₁ t₂ : EvidenceTable} {evs evs' : List Evidence} (h : Grows t t₁ evs) (h' : Grows t₁ t₂ evs') :
    Grows t t₂ (evs ++ evs') := by
  refine ⟨fun r hr => h'.kept r (h.kept r hr), fun r hr => ?_, fun ev hev => ?_⟩
  · rcases h'.new r hr with hr | ⟨ev, hev, he⟩
    · exact (h.new r hr).imp_right fun ⟨ev, hev, he⟩ => ⟨ev, List.mem_append_left _ hev, he⟩
    · exact .inr ⟨ev, List.mem_append_right _ hev, he⟩
  · rcases List.mem_append.1 hev with hev | hev
    · obtain ⟨r, hr, he⟩ := h.claimed ev hev
      exact ⟨r, h'.kept r hr, he⟩
    · exact h'.claimed ev hev

/-- A record whose identity is taken changes nothing. -/
theorem Grows.taken {t : EvidenceTable} {ev : Evidence} (h : ev.identity ∈ t.rows.map EvidenceRow.identity) : Grows t t [ev] := by
  refine ⟨fun _ h => h, fun _ => .inl, fun ev' hev' => ?_⟩
  obtain ⟨r, hr, he⟩ := List.mem_map.1 h
  rw [List.mem_singleton.1 hev']
  exact ⟨r, hr, he⟩

theorem insert_grows (t : EvidenceTable) (ev : Evidence) : Grows t (t.insert ev).1 [ev] := by
  unfold EvidenceTable.insert
  split
  · exact .taken ‹_›
  · refine ⟨fun r hr => List.mem_cons_of_mem _ hr, fun r hr => ?_, fun ev' hev' => ?_⟩
    · rcases List.mem_cons.1 hr with rfl | hr
      · exact .inr ⟨ev, List.mem_singleton_self _, rfl⟩
      · exact .inl hr
    · rw [List.mem_singleton.1 hev']
      exact ⟨rowOf ev, List.mem_cons_self, rfl⟩

theorem recordFrom_grows (evs : List Evidence) : ∀ {t : EvidenceTable} {seen : List Identity} {batch : RecordedEvidenceBatch},
    (∀ k ∈ seen, k ∈ t.rows.map EvidenceRow.identity) → Grows t (recordFrom t seen batch evs).1 evs ∧
      ∀ ev ∈ (recordFrom t seen batch evs).2.existing, ev ∈ batch.existing ∨ ev ∈ evs := by
  induction evs with
  | nil => exact fun _ => ⟨.refl _, fun _ => .inl⟩
  | cons ev evs ih =>
    intro t seen batch hseen
    unfold recordFrom
    split
    · rename_i hin
      obtain ⟨hgrows, hexisting⟩ := @ih t seen { batch with existing := batch.existing ++ [ev] } hseen
      refine ⟨Grows.trans (.taken (hseen _ hin)) hgrows, fun e he => ?_⟩
      rcases hexisting e he with he | he
      · rcases List.mem_append.1 he with he | he
        · exact .inl he
        · rw [List.mem_singleton.1 he]
          exact .inr List.mem_cons_self
      · exact .inr (List.mem_cons_of_mem _ he)
    · have hinsert := insert_grows t ev
      have hseen' : ∀ k ∈ ev.identity :: seen, k ∈ (t.insert ev).1.rows.map EvidenceRow.identity := by
        intro k hk
        rcases List.mem_cons.1 hk with rfl | hk
        · obtain ⟨r, hr, he⟩ := hinsert.claimed ev List.mem_cons_self
          exact List.mem_map.2 ⟨r, hr, he⟩
        · obtain ⟨r, hr, he⟩ := List.mem_map.1 (hseen k hk)
          exact List.mem_map.2 ⟨r, hinsert.kept r hr, he⟩
      generalize t.insert ev = inserted at hinsert hseen' ⊢
      obtain ⟨t', new⟩ := inserted
      cases new with
      | true =>
        obtain ⟨hgrows, hexisting⟩ := @ih t' (ev.identity :: seen) { batch with created := batch.created ++ [ev] } hseen'
        exact ⟨hinsert.trans hgrows, fun e he => (hexisting e he).imp_right (List.mem_cons_of_mem _)⟩
      | false =>
        obtain ⟨hgrows, hexisting⟩ := @ih t' (ev.identity :: seen) { batch with existing := batch.existing ++ [ev] } hseen'
        refine ⟨hinsert.trans hgrows, fun e he => ?_⟩
        rcases hexisting e he with he | he
        · rcases List.mem_append.1 he with he | he
          · exact .inl he
          · rw [List.mem_singleton.1 he]
            exact .inr List.mem_cons_self
        · exact .inr (List.mem_cons_of_mem _ he)

theorem recordAll_grows (batches : List (List Evidence)) : ∀ t : EvidenceTable,
    Grows t (recordAll t batches).1 batches.flatten ∧
      ∀ batch ∈ (recordAll t batches).2, ∀ ev ∈ batch.existing, ev ∈ batches.flatten := by
  induction batches with
  | nil => exact fun t => ⟨.refl t, fun _ h => absurd h List.not_mem_nil⟩
  | cons records batches ih =>
    intro t
    obtain ⟨hgrows, hexisting⟩ := @recordFrom_grows records t [] { total := records.length }
      fun _ h => absurd h List.not_mem_nil
    obtain ⟨hrest, hreports⟩ := ih (record t records).1
    refine ⟨hgrows.trans hrest, fun batch hbatch ev hev => ?_⟩
    rcases List.mem_cons.1 hbatch with rfl | hbatch
    · rcases hexisting ev hev with he | he
      · cases he
      · exact List.mem_append_left _ he
    · exact List.mem_append_right _ (hreports batch hbatch ev hev)

/-- Two rows under one identity are one row. -/
theorem EvidenceTable.eq_of_identity (t : EvidenceTable) {r r' : EvidenceRow} (hr : r ∈ t.rows) (hr' : r' ∈ t.rows)
    (h : r.identity = r'.identity) : r = r' := List.inj_on_of_nodup_map t.unique hr hr' h

theorem kept_iff (t : EvidenceTable) (batches : List (List Evidence)) : Kept t batches ↔ Agree t batches.flatten := by
  obtain ⟨hgrows, hreports⟩ := recordAll_grows batches t
  unfold Kept
  generalize hafter : (recordAll t batches).1 = after at hgrows
  constructor
  · rintro ⟨hstored, -⟩ ev hev
    obtain ⟨r, hr, hid, hq⟩ := hstored ev hev
    refine ⟨fun r₀ hr₀ hid₀ => ?_, fun ev' hev' hid' => ?_⟩
    · rw [after.eq_of_identity (hgrows.kept r₀ hr₀) hr (hid₀.trans hid.symm), hq]
    · obtain ⟨r', hr', hid'', hq'⟩ := hstored ev' hev'
      rw [← hq', after.eq_of_identity hr' hr (hid''.trans (hid'.trans hid.symm)), hq]
  · intro hagree
    have hstored : ∀ ev ∈ batches.flatten, Stored after ev := by
      intro ev hev
      obtain ⟨r, hr, hid⟩ := hgrows.claimed ev hev
      refine ⟨r, hr, hid, ?_⟩
      rcases hgrows.new r hr with hr | ⟨ev', hev', rfl⟩
      · exact (hagree ev hev).1 r hr hid
      · exact (hagree ev hev).2 ev' hev' hid
    exact ⟨hstored, fun batch hbatch ev hev => hstored ev (hreports batch hbatch ev hev)⟩

/-! ## Parts of a batch -/

/-- The stored rows under the records' identities have their quality payloads. -/
def StoredAgree (t : EvidenceTable) (evs : List Evidence) : Prop :=
  ∀ ev ∈ evs, ∀ r ∈ t.rows, r.identity = ev.identity → r.quality = jsonb ev.quality

/-- Elements with one key have one quality payload. -/
def OneQuality {α κ : Type} (key : α → κ) (quality : α → Dict) (xs : List α) : Prop :=
  ∀ x ∈ xs, ∀ y ∈ xs, key x = key y → jsonb (quality x) = jsonb (quality y)

abbrev Consistent (evs : List Evidence) : Prop := OneQuality Evidence.identity Evidence.quality evs

theorem agree_iff (t : EvidenceTable) (evs : List Evidence) : Agree t evs ↔ StoredAgree t evs ∧ Consistent evs := by
  constructor
  · exact fun h => ⟨fun ev hev => (h ev hev).1, fun ev hev ev' hev' hid => (h ev' hev').2 ev hev hid⟩
  · exact fun h ev hev => ⟨h.1 ev hev, fun ev' hev' hid => h.2 ev' hev' ev hev hid⟩

theorem consistent_congr {evs evs' : List Evidence} (h : ∀ ev, ev ∈ evs ↔ ev ∈ evs') : Consistent evs ↔ Consistent evs' := by
  unfold Consistent OneQuality
  simp only [h]

/-- Records of several sorts, told apart by their identities, are consistent sort by sort. -/
theorem consistent_sorts {σ : Type} (sort : Identity → σ) {parts : List (σ × List Evidence)} (hn : (parts.map (·.1)).Nodup)
    (hsort : ∀ part ∈ parts, ∀ ev ∈ part.2, sort ev.identity = part.1) :
    Consistent (parts.flatMap (·.2)) ↔ ∀ part ∈ parts, Consistent part.2 := by
  constructor
  · exact fun h part hpart ev hev ev' hev' => h ev (List.mem_flatMap.2 ⟨part, hpart, hev⟩) ev' (List.mem_flatMap.2 ⟨part, hpart, hev'⟩)
  · intro h ev hev ev' hev' hid
    obtain ⟨part, hpart, hev⟩ := List.mem_flatMap.1 hev
    obtain ⟨part', hpart', hev'⟩ := List.mem_flatMap.1 hev'
    obtain rfl : part = part' :=
      List.inj_on_of_nodup_map hn hpart hpart' (by rw [← hsort part hpart ev hev, ← hsort part' hpart' ev' hev', hid])
    exact h part hpart ev hev ev' hev' hid

/-- The records of a list, one for each element. -/
theorem consistent_map {α κ : Type} {make : α → Evidence} {key : α → κ} {xs : List α}
    (h : ∀ x y, (make x).identity = (make y).identity ↔ key x = key y) :
    Consistent (xs.map make) ↔ OneQuality key (fun x => (make x).quality) xs := by
  unfold Consistent OneQuality
  simp only [List.forall_mem_map, h]

theorem consistent_singleton (ev : Evidence) : Consistent [ev] := by
  intro e he e' he' _
  rw [List.mem_singleton.1 he, List.mem_singleton.1 he']

/-- Numbers with one text. -/
theorem int_text_inj {m n : Int} : toString m = toString n ↔ m = n := by
  refine ⟨fun h => ?_, congrArg _⟩
  have hminus : ∀ i j : Nat, "-" ++ Nat.repr i ≠ Nat.repr j := by
    intro i j he
    have hmem : '-' ∈ Nat.toDigits 10 j := by
      have hlist := congrArg String.toList he
      simp only [Nat.repr, String.toList_append, String.toList_ofList] at hlist
      rw [← hlist]
      exact List.mem_cons_self
    exact absurd (toDigits_digits j _ hmem) (by decide)
  cases m with
  | ofNat i =>
    cases n with
    | ofNat j => exact congrArg Int.ofNat (Nat.repr_injective h)
    | negSucc j => exact absurd h.symm (hminus _ _)
  | negSucc i =>
    cases n with
    | ofNat j => exact absurd h (hminus _ _)
    | negSucc j => exact congrArg Int.negSucc (Nat.succ.inj (Nat.repr_injective ((String.append_right_inj _).1 h)))

/-- The beginning of a locator does not depend on what follows. -/
theorem locator_start {before : String} {n : Nat} (h : n < before.toList.length) (x : String) :
    (before ++ x).toList[n]? = before.toList[n]? := by
  rw [String.toList_append, List.getElem?_append_left h]

/-- A locator of a numbered part. -/
theorem locator_inj (before : String) {m n : Int} : before ++ toString m = before ++ toString n ↔ m = n :=
  (String.append_right_inj before).trans int_text_inj

theorem numbered_iff (before sid : String) (kind : EvidenceKind) (digest : String) (m n : Int) :
    ((sid, before ++ toString m, kind, digest) : Identity) = (sid, before ++ toString n, kind, digest) ↔ m = n := by
  rw [Prod.mk.injEq, Prod.mk.injEq, locator_inj]
  simp

end Umd.Repositories
