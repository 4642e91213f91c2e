import Umd.Lib.JsonDict
import Umd.Lib.Patterns
import Umd.Projections.Search
import Umd.Storage.EvidenceRows
/-!
# Structural text analysis

The evidence of `analyze_segments`: for each paragraph a finding of dialogue or
narration, and after it the candidates for entities and for a relationship, all under
the paragraph's locator. They are kept only where there are no candidates
(`text_kept_iff`).
-/

namespace Umd.TextStructural

open Umd.Lib Umd.Sandbox Umd.Projections Umd.Repositories

/-- `ParagraphSegment`, as far as its evidence goes. -/
structure ParagraphSegment where
  text : String
  locator : String
  segmentId : Option String := none

/-! ## Quotes -/

/-- The closing mark of an opening one. -/
def closingQuote : Char → Option Char
  | '"' => some '"'
  | '\x27' => some '\x27'
  | '“' => some '”'
  | '‘' => some '’'
  | _ => none

/-- `_QUOTE_RE.findall`; the fuel is the length of the text. -/
def findQuotes : Nat → List Char → List (List Char)
  | n + 1, c :: cs =>
    match closingQuote c with
    | none => findQuotes n cs
    | some close =>
      match cs.span (· ≠ close) with
      | (inside, q :: rest) => (c :: inside ++ [q]) :: findQuotes n rest
      | (_, []) => findQuotes n cs
  | _, _ => []

/-- `strip_quotes`. -/
def stripQuotes (cs : List Char) : List Char :=
  let mark c := ['"', '\x27', '“', '”', '‘', '’', ' '].contains c
  ((cs.dropWhile mark).reverse.dropWhile mark).reverse

/-- `extract_quotes`. -/
def extractQuotes (paragraph : List Char) : List (List Char) :=
  ((findQuotes paragraph.length paragraph).map stripQuotes).filter (· ≠ [])

def isDash (c : Char) : Bool := c = '—' || c = '–' || c = '-'

/-- `_DASH_RE.match`. -/
def dashMatch (paragraph : List Char) : Bool :=
  match paragraph.dropWhile isSpace with
  | dash :: c :: _ => isDash dash && isSpace c
  | _ => false

/-- `classify_dialogue`. -/
def classifyDialogue (paragraph : List Char) : Bool := dashMatch paragraph || findQuotes paragraph.length paragraph ≠ []

/-- `str.split` -/
def pySplit (cs : List Char) : List (List Char) := (cs.splitOnP isSpace).filter (· ≠ [])

/-- `[^A-Za-z' ]`. -/
def notAttribution (c : Char) : Bool := !(c.isUpper || c.isLower || c = '\x27' || c = ' ')

/-- `re.sub(r"[^A-Za-z' ]+", " ", ...)`. -/
def blankRuns : Bool → List Char → List Char
  | _, [] => []
  | inRun, c :: cs =>
    if notAttribution c then (if inRun then blankRuns true cs else ' ' :: blankRuns true cs) else c :: blankRuns false cs

/-- `candidate_speaker`. -/
def candidateSpeaker (paragraph : List Char) : Option String :=
  match extractQuotes paragraph with
  | [] => none
  | quote :: _ =>
    let before := ((splitFirst quote paragraph).map (·.1)).getD []
    let words := (pySplit (blankRuns false before)).filter fun w => w.head?.any Char.isUpper
    words.getLast?.map String.ofList

/-! ## Capitalized runs -/

/-- A group of a pattern, any number of times; the fuel is the length of the text. -/
def many (p : Pattern Char) : Nat → Pattern Char
  | 0, cs => [cs]
  | n + 1, cs => cs :: (p cs).flatMap (many p n)

def capWord : Pattern Char := Pattern.andThen (.one Char.isUpper) (.plus Char.isLower)

/-- `_CAP_RE`, between its word boundaries. -/
def capRun (cs : List Char) : List (List Char) :=
  Pattern.andThen capWord (many (Pattern.andThen (.plus isSpace) capWord) cs.length) cs

section

-- `\w`
variable (isWord : Char → Bool)

/-- What is left after the match of `_CAP_RE` at the start of a text: the pattern is greedy, and ends where no word goes on. -/
def capMatch (cs : List Char) : Option (List Char) :=
  ((capRun cs).filter fun rest => rest.head?.all fun c => !isWord c).argmin List.length

/-- `_CAP_RE.finditer`: the text before each match, and the match. The fuel is the length of the text. -/
def capRuns : Nat → List Char → List Char → List (List Char × List Char)
  | n + 1, before, c :: cs =>
    match if before.getLast?.any isWord then none else capMatch isWord (c :: cs) with
    | none => capRuns n (before ++ [c]) cs
    | some rest =>
      let run := (c :: cs).take ((c :: cs).length - rest.length)
      (before, run) :: capRuns n (before ++ run) rest
  | _, _, _ => []

/-- `str.count`; the fuel is the length of the text. -/
def pyCount (sub : List Char) : Nat → List Char → Nat
  | n + 1, cs =>
    match splitFirst sub cs with
    | some (_, rest) => pyCount sub n rest + 1
    | none => 0
  | 0, _ => 0

/-- `_repeats`. -/
def repeats (paragraph run : List Char) : Bool := decide (1 < pyCount run paragraph.length paragraph)

/-- The runs that are not in `seen`, each at its first match. -/
def newRuns (seen : List (List Char)) : List (List Char × List Char) → List (List Char × List Char)
  | [] => []
  | (before, run) :: runs => if run ∈ seen then newRuns seen runs else (before, run) :: newRuns (run :: seen) runs

/-! ## Evidence -/

def text (cs : List Char) : Json := .str (String.ofList cs)

def confidence (m : Int) (e : Nat) (h : inUnit (PyReal.ofNumber (.dec m e)).number = true) : Confidence := ⟨.ofNumber (.dec m e), h⟩

/-- The quality of a finding. -/
def findingQuality (paragraph : List Char) : Dict :=
  let isDialogue := classifyDialogue paragraph
  [("finding", .str (if isDialogue then "dialogue" else "narration")), ("quotes", .arr ((extractQuotes paragraph).map text)),
   ("speaker_candidate", Json.ofStr? (if isDialogue then candidateSpeaker paragraph else none))]

def entityQuality (paragraph before run : List Char) : Dict :=
  [("candidate_kind", .str "entity"), ("mention_text", text run), ("sentence_offset", ofInt (pySplit before).length),
   ("context_text", text paragraph)]

def relationshipQuality (entities : List (List Char)) : Dict :=
  [("candidate_kind", .str "relationship"), ("co_occurring", .arr (entities.map text))]

/-- `seen`, with the text before the first match of each run. -/
def seenRuns (paragraph : List Char) : List (List Char × List Char) :=
  newRuns [] (capRuns isWord paragraph.length [] paragraph)

/-- The run becomes an entity candidate. -/
def isCandidate (paragraph run : List Char) : Bool :=
  capMatch isWord run = some [] && pySplit run ≠ [] && repeats paragraph run

/-- The order in which a set is iterated. -/
structure SetOrder where
  order : List (List Char) → List (List Char)
  perm : ∀ xs, (order xs).Perm xs

theorem perm_id (xs : List (List Char)) : (id xs).Perm xs := .refl _

variable (setOrder : SetOrder)

/-- `_record_candidates`: the confidence and the quality of each. -/
def recordCandidates (paragraph : List Char) : List (Confidence × Dict) :=
  let runs := seenRuns isWord paragraph
  let entities := setOrder.order (runs.map (·.2))
  (runs.filter fun r => isCandidate isWord paragraph r.2).map
      (fun r => (confidence 3 1 inUnit_three_tenths, entityQuality paragraph r.1 r.2)) ++
    if 2 ≤ entities.length then [(confidence 2 1 inUnit_two_tenths, relationshipQuality entities)] else []

/-- The arguments of `analyze_segments`. -/
structure Analysis where
  sourceId : String
  toolVersions : Dict := []
  language : Option String := none
  extractionStage : String := "STRUCTURAL_ANALYSIS"
  configDigest : Option String := none

/-- `tools`. -/
def Analysis.tools (a : Analysis) : Dict :=
  Dict.update [("segmenter", .str "umd-text"), ("decoder", .str "umd-stdlib"), ("analyzer", .str "umd-text-structural@2")]
    a.toolVersions

/-- `_ev`, of a `text_span`. -/
def Analysis.ev (a : Analysis) (seg : ParagraphSegment) (stage : String) (conf : Confidence) (quality : Dict) : Evidence where
  sourceId := a.sourceId
  segmentId := seg.segmentId
  evidenceKind := .textSpan
  locator := some seg.locator
  language := a.language
  extractionStage := some stage
  toolVersions := a.tools
  configDigest := a.configDigest
  confidence := some conf
  quality := quality

/-- The finding of a paragraph. -/
def Analysis.finding (a : Analysis) (seg : ParagraphSegment) : Evidence :=
  a.ev seg a.extractionStage (confidence 9 1 inUnit_nine_tenths) (findingQuality seg.text.toList)

/-- The evidence of one paragraph. -/
def Analysis.segmentEvidence (a : Analysis) (seg : ParagraphSegment) : List Evidence :=
  a.finding seg :: (recordCandidates isWord setOrder seg.text.toList).map fun c => a.ev seg "STRUCTURAL_ANALYSIS" c.1 c.2

/-- `analyze_segments(...).evidence`. -/
def analyzeSegments (a : Analysis) (segments : List ParagraphSegment) : List Evidence :=
  segments.flatMap (a.segmentEvidence isWord setOrder)

/-! ## What is kept -/

/-- The paragraph has less than two different runs, and none that repeats. -/
def NoCandidates (paragraph : List Char) : Prop :=
  (seenRuns isWord paragraph).length < 2 ∧ ∀ r ∈ seenRuns isWord paragraph, isCandidate isWord paragraph r.2 = false

variable {isWord}

theorem recordCandidates_nil (paragraph : List Char) :
    recordCandidates isWord setOrder paragraph = [] ↔ NoCandidates isWord paragraph := by
  unfold recordCandidates NoCandidates
  dsimp only
  rw [List.append_eq_nil_iff, List.map_eq_nil_iff, List.filter_eq_nil_iff, (setOrder.perm _).length_eq, List.length_map]
  simp only [Bool.not_eq_true, ite_eq_right_iff, List.cons_ne_nil, imp_false, Nat.not_le]
  exact And.comm

variable {setOrder}

theorem candidate_quality {paragraph : List Char} {c : Confidence × Dict} (h : c ∈ recordCandidates isWord setOrder paragraph) :
    c.2.keys.Nodup ∧ c.2.get? "finding" = none := by
  unfold recordCandidates at h
  rcases List.mem_append.1 h with h | h
  · obtain ⟨r, -, rfl⟩ := List.mem_map.1 h
    have hkeys : (entityQuality paragraph r.1 r.2).keys = ["candidate_kind", "mention_text", "sentence_offset", "context_text"] := rfl
    exact ⟨hkeys ▸ by decide, rfl⟩
  · split at h
    · rw [List.mem_singleton.1 h]
      have hkeys : ∀ entities, (relationshipQuality entities).keys = ["candidate_kind", "co_occurring"] := fun _ => rfl
      exact ⟨hkeys _ ▸ by decide, rfl⟩
    · cases h

/-- A candidate says something else than a finding. -/
theorem finding_ne (paragraph : List Char) {q : Dict} (hkeys : q.keys.Nodup) (hq : q.get? "finding" = none) :
    jsonb (findingQuality paragraph) ≠ jsonb q := by
  intro h
  have hfinding : (findingQuality paragraph).keys.Nodup := by
    have hlist : (findingQuality paragraph).keys = ["finding", "quotes", "speaker_candidate"] := rfl
    rw [hlist]
    decide
  rw [jsonb, norm_obj hfinding, jsonb, norm_obj hkeys, Json.obj.injEq] at h
  have hget := get?_readBack hfinding "finding"
  rw [h, get?_readBack hkeys, hq] at hget
  cases hget

theorem mem_analyzeSegments {a : Analysis} {segments : List ParagraphSegment} {ev : Evidence} :
    ev ∈ analyzeSegments isWord setOrder a segments ↔ ∃ seg ∈ segments, ev = a.finding seg ∨
      ∃ c ∈ recordCandidates isWord setOrder seg.text.toList, ev = a.ev seg "STRUCTURAL_ANALYSIS" c.1 c.2 := by
  unfold analyzeSegments Analysis.segmentEvidence
  rw [List.mem_flatMap]
  refine exists_congr fun seg => and_congr_right fun _ => ?_
  rw [List.mem_cons, List.mem_map]
  exact or_congr_right (exists_congr fun c => and_congr_right fun _ => eq_comm)

/-- The paragraph's finding agrees with the stored rows and with the findings of the paragraphs under its locator. -/
def FindingAgrees (t : EvidenceTable) (a : Analysis) (segments : List ParagraphSegment) (seg : ParagraphSegment) : Prop :=
  (∀ r ∈ t.rows, r.identity = (a.finding seg).identity → r.quality = jsonb (findingQuality seg.text.toList)) ∧
    ∀ seg' ∈ segments, seg'.locator = seg.locator → jsonb (findingQuality seg'.text.toList) = jsonb (findingQuality seg.text.toList)

theorem text_kept_iff (t : EvidenceTable) (a : Analysis) (segments : List ParagraphSegment) :
    Kept t [analyzeSegments isWord setOrder a segments] ↔
      ∀ seg ∈ segments, NoCandidates isWord seg.text.toList ∧ FindingAgrees t a segments seg := by
  rw [kept_iff, List.flatten_singleton]
  have hidentity : ∀ seg seg' : ParagraphSegment, (a.finding seg).identity = (a.finding seg').identity ↔ seg.locator = seg'.locator :=
    fun seg seg' => by simp [Analysis.finding, Analysis.ev, Evidence.identity]
  constructor
  · intro h seg hseg
    have hfinding : a.finding seg ∈ analyzeSegments isWord setOrder a segments := mem_analyzeSegments.2 ⟨seg, hseg, .inl rfl⟩
    refine ⟨(recordCandidates_nil setOrder _).1 (List.eq_nil_iff_forall_not_mem.2 fun c hc => ?_), (h _ hfinding).1,
      fun seg' hseg' hloc => ?_⟩
    · -- a candidate has the identity of the finding
      obtain ⟨hkeys, hget⟩ := candidate_quality hc
      exact finding_ne _ hkeys hget ((h _ (mem_analyzeSegments.2 ⟨seg, hseg, .inr ⟨c, hc, rfl⟩⟩)).2 _ hfinding rfl)
    · exact (h _ hfinding).2 _ (mem_analyzeSegments.2 ⟨seg', hseg', .inl rfl⟩) ((hidentity _ _).2 hloc)
  · intro h
    have hmem : ∀ ev ∈ analyzeSegments isWord setOrder a segments, ∃ seg ∈ segments, ev = a.finding seg := by
      intro ev hev
      obtain ⟨seg, hseg, rfl | ⟨c, hc, -⟩⟩ := mem_analyzeSegments.1 hev
      · exact ⟨seg, hseg, rfl⟩
      · rw [(recordCandidates_nil setOrder _).2 (h seg hseg).1] at hc
        cases hc
    intro ev hev
    obtain ⟨seg, hseg, rfl⟩ := hmem ev hev
    refine ⟨(h seg hseg).2.1, fun ev' hev' hid => ?_⟩
    obtain ⟨seg', hseg', rfl⟩ := hmem ev' hev'
    exact (h seg hseg).2.2 seg' hseg' ((hidentity _ _).1 hid)

end

end Umd.TextStructural
