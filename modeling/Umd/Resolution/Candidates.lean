import Umd.Lib.Python
import Umd.Projections.Search
import Umd.Resolution.Split
/-!
# Candidate mentions

`MentionBlockIndex.link`: the mentions that share a block with a mention, scored and
cut to the best. What Unicode says of a text comes from outside.
-/

namespace Umd.Resolution

open Umd.Lib Umd.Reducer Umd.Projections

/-- `unicodedata.normalize` and `combining`, `str.casefold`, and `\w` of `re`. -/
structure Unicode where
  nfkc : String → String
  nfd : String → String
  casefold : String → String
  combining : Char → Bool
  isWord : Char → Bool

/-- `SourceMention`, with its `mention_id`. -/
structure SourceMention where
  mentionId : String
  sourceId : String
  segmentId : Option String := none
  entityId : Option String := none
  mentionText : String
  normalizedForms : List String := []
  speakerLabel : Option String := none
  faceCluster : Option String := none
  confidenceState : String := "UNKNOWN"
  confidence : Option ℚ := none
  candidates : List MentionCandidate := []
  provenance : Dict := []
  metadata : Dict := []
  contextText : Option String := none
  workId : Option String := none
  continuityId : Option String := none

/-- `CandidatePolicy`, as far as `link` reads it. -/
structure CandidatePolicy where
  soundexBlock : Bool := true
  clusterBlock : Bool := true
  maxCandidatesPerMention : ℤ := 20
  candidateFloor : ℚ := 1 / 4

section
variable (u : Unicode)

/-! ## Keys -/

/-- `re.sub(r"\s+", " ", s)`; the flag says that the character before was a space. -/
def collapse : Bool → List Char → List Char
  | _, [] => []
  | inRun, c :: cs =>
    if isSpace c then (if inRun then collapse true cs else ' ' :: collapse true cs) else c :: collapse false cs

/-- `normalize_name` -/
def normalizeName (text : String) : String :=
  String.ofList (collapse false (u.casefold (u.nfkc (strip text))).toList)

/-- `transliteration_key`: without combining marks but the two of kana. -/
def transliterationKey (text : String) : String :=
  normalizeName u (String.ofList ((u.nfd (u.casefold text)).toList.filter fun c =>
    !u.combining c || c = '\u3099' || c = '\u309a'))

/-- `_SOUNDEX_CODES` -/
def soundexCode (c : Char) : Option Char :=
  if c ∈ ['b', 'f', 'p', 'v'] then some '1'
  else if c ∈ ['c', 'g', 'j', 'k', 'q', 's', 'x', 'z'] then some '2'
  else if c ∈ ['d', 't'] then some '3'
  else if c = 'l' then some '4'
  else if c ∈ ['m', 'n'] then some '5'
  else if c = 'r' then some '6'
  else none

/-- `_soundex_ascii`, of a word that is not empty. -/
def soundexAscii (first : Char) (rest : List Char) : String :=
  let codes := rest.foldl (fun codes c =>
    match soundexCode c with
    | some code => if codes.getLast? = some code then codes else codes ++ [code]
    | none => codes) []
  let word := (first :: codes).take 4
  String.ofList (word ++ List.replicate (4 - word.length) '0')

/-- `soundex`; a digest is the text it is taken of, and no soundex code. -/
def soundex (name : String) : String :=
  let key := transliterationKey u name
  match key.toList.filter fun c => 'a' ≤ c && c ≤ 'z' with
  | first :: second :: rest => soundexAscii first (second :: rest)
  | _ => "sha256:" ++ shaDigits key

/-- `a or b or ""` -/
def textOr (a b : Option String) : String := ((nonEmpty a).or (nonEmpty b)).getD ""

/-- `cluster_key(m.speaker_label or m.face_cluster or "")` -/
def clusterKey (m : SourceMention) : String := normalizeName u (textOr m.speakerLabel m.faceCluster)

/-- The keys a mention is found under by its text and its forms; a form without key is not used. -/
def keysOf (key : String → String) (m : SourceMention) : List String :=
  key m.mentionText :: (m.normalizedForms.map key).filter (· ≠ "")

/-! ## The score -/

/-- `set(x or [])` -/
def jsonSet (j : Json) : Except PyError (List Json) := do
  let xs ← pyList j
  if xs.all fun x => match x with
    | .arr _ | .obj _ => false
    | _ => true
  then return dedup xs
  else throw .typeError

/-- `jaccard_similarity`, of lists without repetitions. -/
def jaccard {α : Type} (mem : α → List α → Bool) (a b : List α) : ℚ :=
  let both := (a.filter (mem · b)).length
  let either := a.length + b.length - both
  if either = 0 then 0 else both / either

/-- `_tokens` -/
def tokens (text : String) : List String :=
  (((normalizeName u text).toList.splitOnP fun c => !u.isWord c).filter (!·.isEmpty)).map fun w =>
    normalizeName u (String.ofList w)

/-- `_token_set` -/
def tokenSet (m : SourceMention) : List String := ((m.mentionText :: m.normalizedForms).flatMap (tokens u)).dedup

/-- `_form_set` -/
def formSet (m : SourceMention) : List String := (((m.mentionText :: m.normalizedForms).map (normalizeName u)).filter (· ≠ "")).dedup

/-- `_link_score` -/
def linkScore (probe cand : SourceMention) : Except PyError ℚ := do
  let mem (s : String) (xs : List String) : Bool := xs.contains s
  let name := jaccard mem (tokenSet u probe) (tokenSet u cand)
  let alternate := jaccard mem (formSet u probe) (formSet u cand)
  let probeCo ← jsonSet (probe.metadata.get "co_occurring")
  let candCo ← jsonSet (cand.metadata.get "co_occurring")
  let context := jaccard pyIn probeCo candCo
  let probeType := probe.metadata.get "entity_type"
  let candType := cand.metadata.get "entity_type"
  let sameType : ℚ := if probeType.truthy && candType.truthy && pyEq probeType candType then 1 else 0
  let canonical : ℚ := if cand.entityId.isSome && probe.entityId.isSome && cand.entityId = probe.entityId then 1 else 0
  let model : ℚ := if probe.candidates.any fun c => some c.entityRef = cand.entityId || c.entityRef = cand.mentionId then 1 else 0
  return 55 / 100 * name + 15 / 100 * alternate + 10 / 100 * context + 5 / 100 * sameType + 10 / 100 * canonical + 5 / 100 * model

/-! ## `MentionBlockIndex` -/

/-- `_by_entity.get(ref, [])` -/
def byEntity (index : List SourceMention) (ref : String) : List SourceMention :=
  index.filter fun m => nonEmpty m.entityId = some ref

/-- `_by_mention_id.get(ref)` -/
def byMentionId (index : List SourceMention) (ref : String) : Option SourceMention :=
  lastValue (index.map fun m => (m.mentionId, m)) ref

/-- What comes into the pool, each mention id once. -/
def firstOfEach (ms : List SourceMention) : List SourceMention :=
  ms.foldl (fun pool m => if pool.any (·.mentionId = m.mentionId) then pool else pool ++ [m]) []

/-- The mentions of one table under one of the keys. -/
def block (index : List SourceMention) (keys : List String) (keysAt : SourceMention → List String) : List SourceMention :=
  (keys.filter (· ≠ "")).flatMap fun key => index.filter fun m => (keysAt m).contains key

/-- The pool of `link`: what shares a block with the mention, and what its own candidates name. -/
def pool (policy : CandidatePolicy) (index : List SourceMention) (m : SourceMention) : List SourceMention :=
  firstOfEach (block index ((m.mentionText :: m.normalizedForms).map (normalizeName u)) (keysOf (normalizeName u)) ++
    block index ((m.mentionText :: m.normalizedForms).map (transliterationKey u)) (keysOf (transliterationKey u)) ++
    (if policy.soundexBlock then block index [soundex u m.mentionText] (fun m => [soundex u m.mentionText]) else []) ++
    (if policy.clusterBlock then block index [clusterKey u m] (fun m => [clusterKey u m]) else []) ++
    m.candidates.flatMap fun mc => byEntity index mc.entityRef ++ (byMentionId index mc.entityRef).toList)

/-- The ref a mention is a candidate under: `cand.entity_id or cand.mention_id`. -/
def candidateRef (m : SourceMention) : String := (nonEmpty m.entityId).getD m.mentionId

/-- The scored candidates that reach the floor, the best first. -/
def ranked (policy : CandidatePolicy) (scored : List (ℚ × SourceMention)) : List (ℚ × SourceMention) :=
  (scored.filter fun c => policy.candidateFloor ≤ c.1).insertionSort fun c c' =>
    c'.1 < c.1 ∨ (c.1 = c'.1 ∧ c.2.mentionId ≤ c'.2.mentionId)

/-- `link`: the candidates of a mention. -/
def link (policy : CandidatePolicy) (index : List SourceMention) (m : SourceMention) : Except PyError (List MentionCandidate) := do
  let scored ← ((pool u policy index m).filter (·.mentionId ≠ m.mentionId)).mapM fun c => (linkScore u m c).map fun s => (s, c)
  return (sliceTo (ranked policy scored) policy.maxCandidatesPerMention).map fun c => ⟨candidateRef c.2, roundTo 4 c.1, "candidate"⟩

end

end Umd.Resolution
