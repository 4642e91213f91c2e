import Umd.Lib.JsonDict
import Umd.Lib.Orders
import Umd.Lib.Python
import Umd.Lib.Uuid
/-!
# Stored mentions

`PostgresMentionRepository.record` and `get`. A mention reads back as it was recorded if
and only if it has an id, and nothing that no column keeps (`recorded_iff`).
-/

namespace Umd.Mentions

open Umd.Lib

/-- A float. -/
abbrev PyFloat := { n : Number // n.toFloat = n }

/-- `MentionCandidate`. -/
structure MentionCandidate where
  entityRef : String
  confidence : PyFloat
  role : String := "candidate"

/-- `SourceMention`. -/
structure SourceMention where
  id : Option UuidValue := none
  sourceId : String
  segmentId : Option String := none
  entityId : Option String := none
  mentionText : String
  mentionKind : String := "name"
  normalizedForms : List String := []
  speakerLabel : Option String := none
  faceCluster : Option String := none
  confidenceState : String := "UNKNOWN"
  confidence : Option PyFloat := none
  language : Option String := none
  script : Option String := none
  candidates : List MentionCandidate := []
  provenance : Dict := []
  metadata : Dict := []
  contextText : Option String := none
  workId : Option String := none
  continuityId : Option String := none
  distinct : metadata.keys.Nodup := by simp [Dict.keys]

/-- A row of `entity_mention`. -/
structure EntityMentionRow where
  id : UuidValue
  entityId : Option UuidValue
  sourceId : UuidValue
  segmentId : Option UuidValue
  mentionText : String
  normalizedForms : Json
  speakerLabel : Option String
  faceCluster : Option String
  metadata : Json

/-- The mentions, and the rows that they refer to. -/
structure Tables where
  sources : List UuidValue
  segments : List UuidValue
  entities : List UuidValue
  rows : List EntityMentionRow
  keys : (rows.map (·.id)).Nodup

/-- Why a call raises. -/
inductive StoreError where
  | dataError
  | integrityError
  | validationError
  | python (e : PyError)

/-! ## Writing -/

/-- `_RESERVED_METADATA`. -/
def reservedMetadata : List String := ["mention_kind", "confidence_state", "confidence", "language", "script", "provenance", "candidates"]

def floatJson (f : Option PyFloat) : Json := (f.map fun f => Json.num f.1).getD .null

/-- A candidate in the metadata. -/
def MentionCandidate.dump (c : MentionCandidate) : Json :=
  .obj [("entity_ref", .str c.entityRef), ("confidence", .num c.confidence.1), ("role", .str c.role)]

/-- `_metadata_blob`. -/
def SourceMention.metadataBlob (m : SourceMention) : Dict :=
  let blob := Dict.update
    [("mention_kind", .str m.mentionKind), ("confidence_state", .str m.confidenceState), ("confidence", floatJson m.confidence),
     ("language", Json.ofStr? m.language), ("script", Json.ofStr? m.script), ("provenance", .obj m.provenance)] m.metadata
  if m.candidates = [] then blob else blob.set "candidates" (.arr (m.candidates.map MentionCandidate.dump))

/-- `uuid_ref_or_none`. -/
def uuidRefOrNone (entityId : Option String) : Option String := entityId.filter fun s => (pyUuid s).isSome

/-- A text that a column holds. -/
def holdsText (s : String) : Bool := !s.toList.contains '\x00'

/-- A text of a column of so many characters. -/
def holdsLabel (s : Option String) : Bool := s.all fun s => holdsText s && s.length ≤ 128

mutual
/-- A value that `JSONB` holds: no number that is not finite, and no text with a null character. -/
def holdsJson : Json → Bool
  | .num (.dec _ _) => true
  | .num _ => false
  | .str s => holdsText s
  | .arr xs => holdsItems xs
  | .obj d => holdsFields d
  | _ => true
def holdsItems : List Json → Bool
  | [] => true
  | x :: xs => holdsJson x && holdsItems xs
def holdsFields : List (String × Json) → Bool
  | [] => true
  | (k, v) :: d => holdsText k && holdsJson v && holdsFields d
end

/-- A text bound to a column of UUIDs. -/
def bindUuid (s : String) : Except StoreError UuidValue := (pgUuid s).elim (.error .dataError) .ok

def bindUuid? : Option String → Except StoreError (Option UuidValue)
  | none => .ok none
  | some s => (bindUuid s).map some

/-- `_row_values` with the id, as the columns take them. -/
def rowValues (m : SourceMention) (id : String) : Except StoreError EntityMentionRow := do
  let id ← bindUuid id
  let entityId ← bindUuid? (uuidRefOrNone m.entityId)
  let sourceId ← bindUuid m.sourceId
  let segmentId ← bindUuid? m.segmentId
  if holdsText m.mentionText && holdsItems (m.normalizedForms.map .str) && holdsLabel m.speakerLabel && holdsLabel m.faceCluster &&
      holdsFields m.metadataBlob then
    return { id, entityId, sourceId, segmentId, mentionText := m.mentionText, normalizedForms := .arr (m.normalizedForms.map .str),
             speakerLabel := m.speakerLabel, faceCluster := m.faceCluster, metadata := .obj m.metadataBlob }
  else throw .dataError

/-- The id of a call of `_row_values`: the mention's own, or a new one. -/
def rowId (m : SourceMention) (minted : UuidValue) : String := (m.id.map UuidValue.dashed).getD minted.hex

/-- The rows that a row refers to are there. -/
def Tables.refers (s : Tables) (row : EntityMentionRow) : Bool :=
  s.sources.contains row.sourceId && row.segmentId.all s.segments.contains && row.entityId.all s.entities.contains

/-- A row whose id is new. -/
def Tables.add (s : Tables) (row : EntityMentionRow) (h : row.id ∉ s.rows.map (·.id)) : Tables :=
  { s with
    rows := s.rows ++ [row]
    keys := by
      rw [List.map_append, List.nodup_append]
      refine ⟨s.keys, List.nodup_singleton _, fun a ha b hb he => h ?_⟩
      rwa [← show b = row.id from List.mem_singleton.1 hb, ← he] }

/-- `INSERT … ON CONFLICT DO NOTHING`. -/
def Tables.insert (s : Tables) (row : EntityMentionRow) : Except StoreError Tables :=
  if h : row.id ∈ s.rows.map (·.id) then .ok s
  else if s.refers row then .ok (s.add row h) else .error .integrityError

/-- `record`: the values of the row are made twice, each time with an id of their own. -/
def record (s : Tables) (m : SourceMention) (first second : UuidValue) : Except StoreError (String × Tables) := do
  let row ← rowValues m (rowId m second)
  let s' ← s.insert row
  return (rowId m first, s')

/-! ## Reading -/

section

-- a float that is given as a text
variable (floatText : String → Option PyFloat)

theorem toFloat_idem (n : Number) : n.toFloat.toFloat = n.toFloat := by
  cases n with
  | dec m e => cases e <;> rfl
  | nan | inf | negInf => rfl

/-- A field of type `float`. -/
def fieldFloat : Json → Except StoreError PyFloat
  | .num n => .ok ⟨n.toFloat, toFloat_idem n⟩
  | .bool b => .ok ⟨(boolNum b).toFloat, toFloat_idem _⟩
  | .str s => (floatText s).elim (.error .validationError) .ok
  | _ => .error .validationError

/-- A field of type `str`. -/
def fieldStr : Json → Except StoreError String
  | .str s => .ok s
  | _ => .error .validationError

/-- A field that may be `None`. -/
def field? {α : Type} (field : Json → Except StoreError α) : Json → Except StoreError (Option α)
  | .null => .ok none
  | j => (field j).map some

/-- `MentionCandidate(**c)`. -/
def candidateOf (c : Dict) : Except StoreError MentionCandidate := do
  let entityRef ← fieldStr (c.get "entity_ref")
  let confidence ← fieldFloat floatText (c.get "confidence")
  let role ← fieldStr ((c.get? "role").getD (.str "candidate"))
  return { entityRef, confidence, role }

def ofPython {α : Type} (x : Except PyError α) : Except StoreError α := x.mapError .python

/-- The metadata that no field of a mention is made of. -/
def freeMetadata (md : Dict) : Dict := md.filter fun f => !reservedMetadata.contains f.1

theorem freeMetadata_keys {md : Dict} (h : md.keys.Nodup) : (freeMetadata md).keys.Nodup :=
  h.sublist (List.filter_sublist.map _)

/-- `_to_mention`. -/
def toMention (r : EntityMentionRow) : Except StoreError SourceMention := do
  let stored ← ofPython (pyDict r.metadata)
  let md := Dict.update [] stored
  let mentionKind ← fieldStr ((md.get? "mention_kind").getD (.str "name"))
  let forms ← ofPython (pyList r.normalizedForms)
  let confidenceState ← fieldStr ((md.get? "confidence_state").getD (.str "UNKNOWN"))
  let confidence ← field? (fieldFloat floatText) (md.get "confidence")
  let language ← field? fieldStr (md.get "language")
  let script ← field? fieldStr (md.get "script")
  let listed ← ofPython (pyList (md.get "candidates"))
  let candidates ← (listed.filterMap Json.obj?).mapM (candidateOf floatText)
  let provenance ← ofPython (pyDict (md.get "provenance"))
  return {
    id := some r.id, sourceId := r.sourceId.hex, segmentId := r.segmentId.map UuidValue.hex, entityId := r.entityId.map UuidValue.hex
    mentionText := r.mentionText, mentionKind, normalizedForms := forms.map pyStr, speakerLabel := r.speakerLabel
    faceCluster := r.faceCluster, confidenceState, confidence, language, script, candidates, provenance
    metadata := freeMetadata md
    distinct := freeMetadata_keys (@Dict.update_keys [] List.nodup_nil stored) }

/-- `get`. -/
def get (s : Tables) (mentionId : String) : Except StoreError (Option SourceMention) := do
  let u ← bindUuid mentionId
  match s.rows.find? (·.id = u) with
  | none => return none
  | some r => (toMention floatText r).map some

end

/-! ## What is promised -/

/-- Dictionaries of the same fields. -/
def SameFields (d d' : Dict) : Prop := ∀ k, d.get? k = d'.get? k

/-- A mention that was read is the recorded one; ids are compared as UUIDs. -/
structure Same (m m' : SourceMention) : Prop where
  source : pyUuid m'.sourceId = pyUuid m.sourceId
  segment : m'.segmentId.map pyUuid = m.segmentId.map pyUuid
  entity : m'.entityId.map pyUuid = (uuidRefOrNone m.entityId).map pyUuid
  text : m'.mentionText = m.mentionText
  kind : m'.mentionKind = m.mentionKind
  forms : m'.normalizedForms = m.normalizedForms
  speaker : m'.speakerLabel = m.speakerLabel
  face : m'.faceCluster = m.faceCluster
  state : m'.confidenceState = m.confidenceState
  confidence : m'.confidence = m.confidence
  language : m'.language = m.language
  script : m'.script = m.script
  candidates : m'.candidates = m.candidates
  provenance : SameFields m'.provenance m.provenance
  metadata : SameFields m'.metadata m.metadata
  context : m'.contextText = m.contextText
  work : m'.workId = m.workId
  continuity : m'.continuityId = m.continuityId

section

variable (floatText : String → Option PyFloat) (s : Tables) (m : SourceMention)

/-- What was recorded is what is got. -/
def RoundTrips (first second : UuidValue) : Prop := ∃ mid s' m', record s m first second = .ok (mid, s') ∧
  get floatText s' mid = .ok (some m') ∧ Same m m'

/-- Nothing of the mention is left out of its row. -/
def NothingLost : Prop := (∀ k ∈ reservedMetadata, k ∉ m.metadata.keys) ∧ m.contextText = none ∧ m.workId = none ∧ m.continuityId = none

/-- When a mention of an id is kept: the columns take its values, and either the row of the id was there and
reads as the mention, or nothing is left out of a new row that refers to rows that are there. -/
def Kept (id : UuidValue) : Prop := ∃ row, rowValues m id.dashed = .ok row ∧
  ((∃ old ∈ s.rows, old.id = id ∧ ∃ m', toMention floatText old = .ok m' ∧ Same m m') ∨
    (∀ old ∈ s.rows, old.id ≠ id) ∧ s.refers row = true ∧ NothingLost m)

end

/-! ## A row reads back -/

variable {floatText : String → Option PyFloat} {s : Tables} {m : SourceMention}

/-- The columns of a row that was made. -/
structure Made (m : SourceMention) (id : String) (row : EntityMentionRow) : Prop where
  id : pgUuid id = some row.id
  entity : row.entityId.map some = (uuidRefOrNone m.entityId).map pgUuid
  source : pgUuid m.sourceId = some row.sourceId
  segment : row.segmentId.map some = m.segmentId.map pgUuid
  text : row.mentionText = m.mentionText
  forms : row.normalizedForms = .arr (m.normalizedForms.map .str)
  speaker : row.speakerLabel = m.speakerLabel
  face : row.faceCluster = m.faceCluster
  metadata : row.metadata = .obj m.metadataBlob

theorem bindUuid_ok {text : String} {u : UuidValue} (h : bindUuid text = .ok u) : pgUuid text = some u := by
  unfold bindUuid at h
  cases hu : pgUuid text with
  | none =>
    rw [hu] at h
    cases h
  | some v =>
    rw [hu] at h
    cases h
    rfl

theorem bindUuid?_ok {text : Option String} {u : Option UuidValue} (h : bindUuid? text = .ok u) : u.map some = text.map pgUuid := by
  cases text with
  | none =>
    cases h
    rfl
  | some text =>
    obtain ⟨v, hv, rfl⟩ := map_eq_ok.1 h
    rw [Option.map_some, Option.map_some, bindUuid_ok hv]

theorem rowValues_made {id : String} {row : EntityMentionRow} (h : rowValues m id = .ok row) : Made m id row := by
  unfold rowValues at h
  obtain ⟨rowKey, hid, h⟩ := bind_ok h
  obtain ⟨entityId, hentity, h⟩ := bind_ok h
  obtain ⟨sourceId, hsource, h⟩ := bind_ok h
  obtain ⟨segmentId, hsegment, h⟩ := bind_ok h
  split at h
  · cases h
    exact ⟨bindUuid_ok hid, bindUuid?_ok hentity, bindUuid_ok hsource, bindUuid?_ok hsegment, rfl, rfl, rfl, rfl, rfl⟩
  · cases h

/-- What is read of the metadata has none of the reserved keys. -/
theorem get?_freeMetadata (md : Dict) (k : String) : (freeMetadata md).get? k = if k ∈ reservedMetadata then none else md.get? k := by
  rw [freeMetadata, Dict.get?_filter fun k => !reservedMetadata.contains k]
  by_cases h : k ∈ reservedMetadata
  · rw [if_pos h, if_neg (by simpa using h)]
  · rw [if_neg h, if_pos (by simpa using h)]

theorem update_nil {d : Dict} (h : d.keys.Nodup) : Dict.update [] d = d := Dict.update_new h

/-- The fields of a mention in the metadata. -/
def fieldEntries (m : SourceMention) : Dict :=
  [("mention_kind", .str m.mentionKind), ("confidence_state", .str m.confidenceState), ("confidence", floatJson m.confidence),
   ("language", Json.ofStr? m.language), ("script", Json.ofStr? m.script), ("provenance", .obj m.provenance)]

/-- The candidates of a mention in the metadata. -/
def candidateEntries (m : SourceMention) : Dict :=
  if m.candidates = [] then [] else [("candidates", .arr (m.candidates.map MentionCandidate.dump))]

theorem fieldEntries_keys (m : SourceMention) :
    (fieldEntries m).keys = ["mention_kind", "confidence_state", "confidence", "language", "script", "provenance"] := rfl

/-- The metadata of a mention that uses no reserved key. -/
theorem metadataBlob_eq (h : ∀ k ∈ reservedMetadata, k ∉ m.metadata.keys) :
    m.metadataBlob = fieldEntries m ++ m.metadata ++ candidateEntries m ∧ m.metadataBlob.keys.Nodup := by
  have hfields : ((fieldEntries m).keys ++ m.metadata.keys).Nodup := by
    refine List.nodup_append.2 ⟨by rw [fieldEntries_keys]; decide, m.distinct, fun a ha b hb he => ?_⟩
    rw [fieldEntries_keys] at ha
    exact h a (List.mem_append_left ["candidates"] ha) (he ▸ hb)
  have hupdate : (fieldEntries m).update m.metadata = fieldEntries m ++ m.metadata := Dict.update_new hfields
  have hcandidates : "candidates" ∉ (fieldEntries m ++ m.metadata).keys := by
    rw [Dict.keys, List.map_append, List.mem_append, not_or]
    refine ⟨fun hm => ?_, h _ (by decide)⟩
    have hkey : "candidates" ∈ (fieldEntries m).keys := hm
    rw [fieldEntries_keys] at hkey
    exact absurd hkey (by decide)
  have hblob : m.metadataBlob = fieldEntries m ++ m.metadata ++ candidateEntries m := by
    unfold SourceMention.metadataBlob candidateEntries
    show (if m.candidates = [] then (fieldEntries m).update m.metadata else ((fieldEntries m).update m.metadata).set _ _) = _
    rw [hupdate]
    split
    · rw [List.append_nil]
    · exact Dict.set_new _ hcandidates
  refine ⟨hblob, ?_⟩
  rw [hblob, candidateEntries, Dict.keys, List.map_append, List.map_append]
  split
  · rw [List.map_nil, List.append_nil]
    exact hfields
  · refine List.nodup_append.2 ⟨hfields, List.nodup_singleton _, fun a ha b hb he => hcandidates ?_⟩
    rw [Dict.keys, List.map_append, ← show b = "candidates" from List.mem_singleton.1 hb, ← he]
    exact ha

/-- What is read of a row leaves out what no column keeps. -/
theorem toMention_lost {row : EntityMentionRow} {m' : SourceMention} (h : toMention floatText row = .ok m') :
    (∀ k ∈ reservedMetadata, m'.metadata.get? k = none) ∧ m'.contextText = none ∧ m'.workId = none ∧ m'.continuityId = none := by
  unfold toMention at h
  obtain ⟨stored, -, h⟩ := bind_ok h
  dsimp only at h
  obtain ⟨kind, -, h⟩ := bind_ok h
  obtain ⟨forms, -, h⟩ := bind_ok h
  obtain ⟨state, -, h⟩ := bind_ok h
  obtain ⟨confidence, -, h⟩ := bind_ok h
  obtain ⟨language, -, h⟩ := bind_ok h
  obtain ⟨script, -, h⟩ := bind_ok h
  obtain ⟨listed, -, h⟩ := bind_ok h
  obtain ⟨candidates, -, h⟩ := bind_ok h
  obtain ⟨provenance, -, h⟩ := bind_ok h
  cases h
  exact ⟨fun k hk => (get?_freeMetadata _ k).trans (if_pos hk), rfl, rfl, rfl⟩

theorem nothingLost_of_same {row : EntityMentionRow} {m' : SourceMention} (h : toMention floatText row = .ok m') (hsame : Same m m') :
    NothingLost m := by
  obtain ⟨hmetadata, hcontext, hwork, hcontinuity⟩ := toMention_lost h
  refine ⟨fun k hk => ?_, hsame.context.symm.trans hcontext, hsame.work.symm.trans hwork, hsame.continuity.symm.trans hcontinuity⟩
  rw [← Dict.get?_eq_none_iff, ← hsame.metadata k]
  exact hmetadata k hk

theorem ofPython_dict (d : Dict) : ofPython (pyDict (.obj d)) = .ok d := by
  unfold pyDict
  split
  · rfl
  · rename_i h
    cases d with
    | nil => rfl
    | cons f d => exact absurd rfl h

theorem ofPython_list (xs : List Json) : ofPython (pyList (.arr xs)) = .ok xs := by
  cases xs <;> rfl

theorem field_float (c : Option PyFloat) : field? (fieldFloat floatText) (floatJson c) = .ok c := by
  cases c with
  | none => rfl
  | some c => exact congrArg (fun f => Except.ok (some f)) (Subtype.ext c.2)

theorem field_str (o : Option String) : field? fieldStr (Json.ofStr? o) = .ok o := by
  cases o <;> rfl

theorem candidates_read (cs : List MentionCandidate) :
    ((cs.map MentionCandidate.dump).filterMap Json.obj?).mapM (candidateOf floatText) = .ok cs := by
  induction cs with
  | nil => rfl
  | cons c cs ih =>
    have hone : candidateOf floatText [("entity_ref", .str c.entityRef), ("confidence", .num c.confidence.1), ("role", .str c.role)] = .ok c := by
      have hfloat : fieldFloat floatText (.num c.confidence.1) = .ok c.confidence :=
        congrArg Except.ok (Subtype.ext c.confidence.2)
      unfold candidateOf
      show (do
        let entityRef ← Except.ok c.entityRef
        let confidence ← fieldFloat floatText (.num c.confidence.1)
        let role ← Except.ok c.role
        return ({ entityRef, confidence, role } : MentionCandidate)) = _
      rw [hfloat]
      rfl
    rw [List.map_cons, List.filterMap_cons_some (show Json.obj? c.dump = some _ from rfl), List.mapM_cons, hone, ih]
    rfl

/-- A row of a mention that loses nothing reads as the mention. -/
theorem toMention_made {id : String} {row : EntityMentionRow} (h : Made m id row) (hnothing : NothingLost m) :
    ∃ m', toMention floatText row = .ok m' ∧ Same m m' := by
  obtain ⟨hreserved, hcontext, hwork, hcontinuity⟩ := hnothing
  obtain ⟨hblob, hkeys⟩ := metadataBlob_eq hreserved
  have hget : ∀ k, m.metadataBlob.get? k = (((fieldEntries m).get? k).or (m.metadata.get? k)).or ((candidateEntries m).get? k) := fun k => by
    rw [hblob, Dict.get?_append, Dict.get?_append]
  have hfree : ∀ k ∈ reservedMetadata, m.metadata.get? k = none := fun k hk => Dict.get?_eq_none_iff.2 (hreserved k hk)
  have hkind : (m.metadataBlob.get? "mention_kind").getD (.str "name") = .str m.mentionKind := by rw [hget]; rfl
  have hstate : (m.metadataBlob.get? "confidence_state").getD (.str "UNKNOWN") = .str m.confidenceState := by rw [hget]; rfl
  have hconfidence : m.metadataBlob.get "confidence" = floatJson m.confidence := by rw [Dict.get, hget]; rfl
  have hlanguage : m.metadataBlob.get "language" = Json.ofStr? m.language := by rw [Dict.get, hget]; rfl
  have hscript : m.metadataBlob.get "script" = Json.ofStr? m.script := by rw [Dict.get, hget]; rfl
  have hprovenance : m.metadataBlob.get "provenance" = .obj m.provenance := by rw [Dict.get, hget]; rfl
  have hcandidates : ofPython (pyList (m.metadataBlob.get "candidates")) = .ok (m.candidates.map MentionCandidate.dump) := by
    rw [Dict.get, hget, hfree _ (by decide), candidateEntries]
    split
    · rename_i hnone
      rw [hnone]
      rfl
    · exact ofPython_list _
  have hmetadata : SameFields (freeMetadata m.metadataBlob) m.metadata := by
    intro k
    rw [get?_freeMetadata]
    by_cases hk : k ∈ reservedMetadata
    · rw [if_pos hk, hfree k hk]
    · have hfields : (fieldEntries m).get? k = none := by
        rw [Dict.get?_eq_none_iff, fieldEntries_keys]
        exact fun hm => hk (List.mem_append_left ["candidates"] hm)
      have hcand : (candidateEntries m).get? k = none := by
        rw [Dict.get?_eq_none_iff, candidateEntries]
        split
        · exact List.not_mem_nil
        · exact fun hm => hk (List.mem_append_right ["mention_kind", "confidence_state", "confidence", "language", "script", "provenance"] hm)
      rw [if_neg hk, hget, hfields, hcand, Option.none_or, Option.or_none]
  have hread : toMention floatText row = .ok {
      id := some row.id, sourceId := row.sourceId.hex, segmentId := row.segmentId.map UuidValue.hex, entityId := row.entityId.map UuidValue.hex
      mentionText := row.mentionText, mentionKind := m.mentionKind, normalizedForms := (m.normalizedForms.map Json.str).map pyStr
      speakerLabel := row.speakerLabel, faceCluster := row.faceCluster, confidenceState := m.confidenceState, confidence := m.confidence
      language := m.language, script := m.script, candidates := m.candidates, provenance := m.provenance
      metadata := freeMetadata m.metadataBlob, distinct := freeMetadata_keys hkeys } := by
    unfold toMention
    simp only [h.metadata, h.forms, ofPython_dict, ofPython_list, bind, Except.bind, update_nil hkeys, hkind, hstate, hconfidence, hlanguage,
      hscript, hprovenance, hcandidates, fieldStr, field_float, field_str, candidates_read]
    rfl
  refine ⟨_, hread, ?_⟩
  have hhex : ∀ u : UuidValue, pyUuid u.hex = some u := fun u => pyUuid_of_pgUuid (pgUuid_hex u)
  have hids : ∀ {u : Option UuidValue} {text : Option String}, u.map some = text.map pgUuid →
      (u.map UuidValue.hex).map pyUuid = text.map pyUuid := by
    intro u text he
    cases u with
    | none =>
      cases text with
      | none => rfl
      | some text => cases he
    | some u =>
      cases text with
      | none => cases he
      | some text =>
        rw [Option.map_some, Option.map_some, hhex, Option.map_some, pyUuid_of_pgUuid (Option.some.inj he).symm]
  exact {
    source := (hhex _).trans (pyUuid_of_pgUuid h.source).symm
    segment := hids h.segment
    entity := hids h.entity
    text := h.text
    kind := rfl
    forms := by
      rw [List.map_map]
      exact List.map_id _
    speaker := h.speaker
    face := h.face
    state := rfl
    confidence := rfl
    language := rfl
    script := rfl
    candidates := rfl
    provenance := fun _ => rfl
    metadata := hmetadata
    context := hcontext.symm
    work := hwork.symm
    continuity := hcontinuity.symm }

/-! ## What is recorded is got -/

theorem bindUuid_hex (u : UuidValue) : bindUuid u.hex = .ok u := by rw [bindUuid, pgUuid_hex]; rfl

theorem bindUuid_dashed (u : UuidValue) : bindUuid u.dashed = .ok u := by rw [bindUuid, pgUuid_dashed]; rfl

theorem insert_rows {row : EntityMentionRow} {s' : Tables} (h : s.insert row = .ok s') :
    row.id ∈ s.rows.map (·.id) ∧ s' = s ∨ row.id ∉ s.rows.map (·.id) ∧ s.refers row = true ∧ s'.rows = s.rows ++ [row] := by
  unfold Tables.insert at h
  split at h
  · rename_i hold
    cases h
    exact .inl ⟨hold, rfl⟩
  · rename_i hfresh
    split at h
    · rename_i hrefers
      cases h
      exact .inr ⟨hfresh, hrefers, rfl⟩
    · cases h

theorem record_ok {first second : UuidValue} {mid : String} {s' : Tables} (h : record s m first second = .ok (mid, s')) :
    mid = rowId m first ∧ ∃ row, rowValues m (rowId m second) = .ok row ∧ s.insert row = .ok s' := by
  unfold record at h
  obtain ⟨row, hrow, h⟩ := bind_ok h
  obtain ⟨next, hinsert, h⟩ := bind_ok h
  cases h
  exact ⟨rfl, row, hrow, hinsert⟩

theorem get_some {text : String} {u : UuidValue} {m' : SourceMention} (htext : bindUuid text = .ok u) :
    get floatText s text = .ok (some m') ↔ ∃ row ∈ s.rows, row.id = u ∧ toMention floatText row = .ok m' := by
  have hget : get floatText s text = match s.rows.find? (·.id = u) with
      | none => .ok none
      | some r => (toMention floatText r).map some := by
    unfold get
    rw [htext]
    rfl
  rw [hget]
  constructor
  · intro h
    split at h
    · cases h
    · rename_i row hfind
      obtain ⟨m'', hread, he⟩ := map_eq_ok.1 h
      cases he
      exact ⟨row, List.mem_of_find?_eq_some hfind, by simpa using List.find?_some hfind, hread⟩
  · rintro ⟨row, hrow, hid, hread⟩
    cases hfind : s.rows.find? (·.id = u) with
    | none => exact absurd (decide_eq_true hid) (List.find?_eq_none.1 hfind row hrow)
    | some found =>
      have hfound : found = row := by
        refine eq_of_key s.keys (List.mem_of_find?_eq_some hfind) hrow ?_
        have hkey := List.find?_some hfind
        exact (of_decide_eq_true hkey).trans hid.symm
      rw [hfound]
      exact map_eq_ok.2 ⟨m', hread, rfl⟩

/-- A mention reads back as it was recorded if and only if it has an id under which it is kept. -/
theorem recorded_iff (floatText : String → Option PyFloat) (s : Tables) (m : SourceMention) {first second : UuidValue}
    (hnew : first ∉ s.rows.map (·.id)) (hdraws : first ≠ second) :
    RoundTrips floatText s m first second ↔ ∃ id, m.id = some id ∧ Kept floatText s m id := by
  constructor
  · rintro ⟨mid, s', m', hrecord, hget, hsame⟩
    obtain ⟨rfl, row, hrow, hinsert⟩ := record_ok hrecord
    cases hid : m.id with
    | none =>
      -- the id that is returned is not the one of the row
      have hmid : bindUuid (rowId m first) = .ok first := by rw [rowId, hid]; exact bindUuid_hex first
      have hrowId : row.id = second := by
        have hmade := (rowValues_made hrow).id
        rw [rowId, hid] at hmade
        exact Option.some.inj (hmade.symm.trans (pgUuid_hex second))
      obtain ⟨found, hfound, hkey, -⟩ := (get_some hmid).1 hget
      rcases insert_rows hinsert with ⟨-, rfl⟩ | ⟨-, -, hrows⟩
      · exact absurd (List.mem_map.2 ⟨found, hfound, hkey⟩) hnew
      · rw [hrows] at hfound
        rcases List.mem_append.1 hfound with hold | hlast
        · exact absurd (List.mem_map.2 ⟨found, hold, hkey⟩) hnew
        · rw [List.mem_singleton.1 hlast, hrowId] at hkey
          exact absurd hkey.symm hdraws
    | some id =>
      have hkeyOf : ∀ u, rowId m u = id.dashed := fun u => by rw [rowId, hid]; rfl
      rw [hkeyOf] at hrow hget
      have hrowId : row.id = id := Option.some.inj ((rowValues_made hrow).id.symm.trans (pgUuid_dashed id))
      obtain ⟨found, hfound, hkey, hread⟩ := (get_some (bindUuid_dashed id)).1 hget
      refine ⟨id, rfl, row, hrow, ?_⟩
      rcases insert_rows hinsert with ⟨-, rfl⟩ | ⟨hfresh, hrefers, hrows⟩
      · exact .inl ⟨found, hfound, hkey, m', hread, hsame⟩
      · refine .inr ⟨fun old hold he => hfresh (List.mem_map.2 ⟨old, hold, he.trans hrowId.symm⟩), hrefers, ?_⟩
        exact nothingLost_of_same hread hsame
  · rintro ⟨id, hid, row, hrow, hkept⟩
    have hkeyOf : ∀ u, rowId m u = id.dashed := fun u => by rw [rowId, hid]; rfl
    have hrowId : row.id = id := Option.some.inj ((rowValues_made hrow).id.symm.trans (pgUuid_dashed id))
    have hrecord : ∀ s', s.insert row = .ok s' → record s m first second = .ok (id.dashed, s') := by
      intro s' hinsert
      rw [record, hkeyOf, hkeyOf, hrow]
      show (s.insert row).bind _ = _
      rw [hinsert]
      rfl
    rcases hkept with ⟨old, hold, hoid, m', hread, hsame⟩ | ⟨hfresh, hrefers, hnothing⟩
    · have hinsert : s.insert row = .ok s := dif_pos (List.mem_map.2 ⟨old, hold, hoid.trans hrowId.symm⟩)
      exact ⟨_, s, m', hrecord s hinsert, (get_some (bindUuid_dashed id)).2 ⟨old, hold, hoid, hread⟩, hsame⟩
    · have hnotIn : row.id ∉ s.rows.map (·.id) := by
        intro hm
        obtain ⟨old, hold, he⟩ := List.mem_map.1 hm
        exact hfresh old hold (he.trans hrowId)
      have hinsert : s.insert row = .ok (s.add row hnotIn) := by rw [Tables.insert, dif_neg hnotIn, if_pos hrefers]
      obtain ⟨m', hread, hsame⟩ := @toMention_made floatText _ _ _ (rowValues_made hrow) hnothing
      refine ⟨_, _, m', hrecord _ hinsert, (get_some (bindUuid_dashed id)).2 ⟨row, ?_, hrowId, hread⟩, hsame⟩
      exact List.mem_append_right _ (List.mem_singleton_self row)

/-- A UUID of one digit. -/
def idOf (d : Fin 16) : UuidValue := ⟨List.replicate 32 d, List.length_replicate⟩

/-- A mention of a source that is there. -/
def spoken (contextText : Option String) : SourceMention where
  id := some (idOf 1)
  sourceId := (idOf 0).hex
  mentionText := "Alex"
  confidenceState := "CONFIRMED"
  contextText := contextText

def oneSource : Tables where
  sources := [idOf 0]
  segments := []
  entities := []
  rows := []
  keys := List.nodup_nil

theorem spoken_recorded : idOf 2 ∉ oneSource.rows.map (·.id) ∧ idOf 2 ≠ idOf 3 ∧
    RoundTrips (fun _ => none) oneSource (spoken none) (idOf 2) (idOf 3) := by
  refine ⟨List.not_mem_nil, by decide, (recorded_iff _ _ _ List.not_mem_nil (by decide)).2 ⟨idOf 1, rfl, ?_⟩⟩
  have hrow : ∃ row, rowValues (spoken none) (idOf 1).dashed = .ok row ∧ oneSource.refers row = true := by
    have hsource : bindUuid (spoken none).sourceId = .ok (idOf 0) := bindUuid_hex (idOf 0)
    unfold rowValues
    rw [bindUuid_dashed, hsource]
    exact ⟨_, rfl, by decide +kernel⟩
  obtain ⟨row, hrow, hrefers⟩ := hrow
  exact ⟨row, hrow, .inr ⟨nofun, hrefers, fun _ _ => List.not_mem_nil, rfl, rfl, rfl⟩⟩

/-- The context of a mention is in no column. -/
theorem context_lost : ¬ RoundTrips (fun _ => none) oneSource (spoken (some "said Alex")) (idOf 2) (idOf 3) := by
  rintro ⟨mid, s', m', hrecord, hget, hsame⟩
  obtain ⟨rfl, -⟩ := record_ok hrecord
  obtain ⟨row, -, -, hread⟩ := (get_some (bindUuid_dashed (idOf 1))).1 hget
  exact nomatch (toMention_lost hread).2.1.symm.trans hsame.context

end Umd.Mentions
