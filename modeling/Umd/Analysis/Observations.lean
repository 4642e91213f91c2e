import Umd.Analysis.Semantic
import Umd.Analysis.TextStructural
import Umd.Lib.Consumed
/-!
# Observations of a text

The whole result of `analyze_segments`, under every order in which sets are iterated. The
co-occurring runs of a paragraph are listed from a set, so the result is the same under all
orders if and only if no paragraph has two different runs (`analysis_determined_iff`).
-/

namespace Umd.TextStructural

open Umd.Lib Umd.Sandbox Umd.Projections Umd.Repositories Umd.Semantic

/-- `ParagraphSegment`, with what the observations read of it. -/
structure ParagraphRecord extends ParagraphSegment where
  paragraphIndex : ℤ
  chapter : ℤ

/-- `DialogueSpan`. -/
structure DialogueSpan where
  paragraphIndex : ℤ
  locator : String
  text : String
  isDialogue : Bool
  quotes : List String
  speakerCandidate : Option String

/-- `SemanticAnalysisResult`, the lists that the deterministic path fills. -/
structure SemanticAnalysisResult where
  sourceId : String
  generatedBy : GeneratedBy
  sceneBoundaries : List SceneBoundary := []
  entityMentions : List EntityMention := []
  presence : List Presence := []
  utterances : List Utterance := []
  speakerCandidates : List SpeakerCandidate := []
  relationships : List RelationshipCandidate := []
  evidence : List Evidence := []
  dialogueSpans : List DialogueSpan := []

/-! ## Validation

Nothing where Pydantic raises a `ValidationError`. -/

/-- A text of `min_length=1`. -/
def text? (s : String) : Option Text := if h : s ≠ "" then some ⟨s, h⟩ else none

/-- A coordinate of `ge=1`. -/
def ordinal? (n : ℤ) : Option Semantic.Ordinal := if h : 1 ≤ n then some ⟨n, h⟩ else none

/-- `generated_by`, of the analyzer among the tools. -/
def Analysis.generatedBy (a : Analysis) : Option GeneratedBy :=
  match a.tools.get? "analyzer" with
  | some (.str s) => (text? s).map fun analyzer => { analyzer, configDigest := a.configDigest }
  | _ => none

/-! ## The analysis -/

section

-- the id of the n-th evidence row, `\w`, and the order in which sets are iterated
variable (fresh : Nat → String) (isWord : Char → Bool) (setOrder : SetOrder)

/-- `seg_ref`. -/
def segRef (seg : ParagraphRecord) (evidenceRef : String) : Option SegmentEvidenceRef := do
  let locator ← text? seg.locator
  let chapter ← ordinal? seg.chapter
  let paragraph ← ordinal? seg.paragraphIndex
  return { locator, segmentId := seg.segmentId, evidenceRef := some evidenceRef, chapter := some chapter, paragraph := some paragraph }

namespace SemanticAnalysisResult

/-- The id of the row that is appended next. -/
def nextId (r : SemanticAnalysisResult) : String := fresh r.evidence.length

/-- The candidate of one run: its row, its mention and its presence. -/
def addCandidate (a : Analysis) (seg : ParagraphRecord) (ref : SegmentEvidenceRef) (r : SemanticAnalysisResult)
    (run : List Char × List Char) : Option SemanticAnalysisResult := do
  let mention ← text? (String.ofList run.2)
  let candidate : SemanticCandidate := {
    confidence := confidence 3 1 inUnit_three_tenths
    segment := { ref with evidenceRef := some (r.nextId fresh) }
    generatedBy := r.generatedBy }
  return { r with
    evidence := r.evidence ++
      [a.ev seg.toParagraphSegment "STRUCTURAL_ANALYSIS" (confidence 3 1 inUnit_three_tenths) (entityQuality seg.text.toList run.1 run.2)]
    entityMentions := r.entityMentions ++ [{ candidate with mention, contextText := some seg.text }]
    presence := r.presence ++ [{ candidate with entity := mention, presentIn := ref.locator }] }

/-- The candidate of a paragraph where different runs occur. -/
def addRelationship (a : Analysis) (seg : ParagraphRecord) (ref : SegmentEvidenceRef) (r : SemanticAnalysisResult) :
    List (List Char) → Option SemanticAnalysisResult
  | subject :: object :: more => do
    let subjectRef ← text? (String.ofList subject)
    let objectRef ← text? (String.ofList object)
    let candidate : SemanticCandidate := {
      confidence := confidence 2 1 inUnit_two_tenths
      segment := { ref with evidenceRef := some (r.nextId fresh) }
      generatedBy := r.generatedBy }
    return { r with
      evidence := r.evidence ++
        [a.ev seg.toParagraphSegment "STRUCTURAL_ANALYSIS" (confidence 2 1 inUnit_two_tenths) (relationshipQuality (subject :: object :: more))]
      relationships := r.relationships ++ [{ candidate with subjectRef, predicate := ⟨"CO_OCCURS", by decide⟩, objectRef }] }
  | _ => some r

/-- `_record_candidates`. -/
def recordCandidates (a : Analysis) (seg : ParagraphRecord) (ref : SegmentEvidenceRef) (r : SemanticAnalysisResult) :
    Option SemanticAnalysisResult := do
  let runs := seenRuns isWord seg.text.toList
  let r ← (runs.filter fun run => isCandidate isWord seg.text.toList run.2).foldlM (addCandidate fresh a seg ref) r
  r.addRelationship fresh a seg ref (setOrder.order (runs.map (·.2)))

/-- The boundary of a chapter that starts. -/
def addBoundary (seg : ParagraphRecord) (ref : SegmentEvidenceRef) (prevChapter : Option ℤ) (r : SemanticAnalysisResult) :
    SemanticAnalysisResult :=
  if prevChapter = some seg.chapter then r
  else { r with
    sceneBoundaries := r.sceneBoundaries ++ [{
      confidence := confidence 5 1 rfl
      segment := ref
      generatedBy := r.generatedBy
      sceneRef := ⟨"scene/" ++ toString seg.chapter, by simp [String.append_eq_empty_iff]⟩
      label := some ("chapter " ++ toString seg.chapter) }] }

/-- The utterance of a paragraph of dialogue, and its speaker. -/
def addUtterance (seg : ParagraphRecord) (ref : SegmentEvidenceRef) (r : SemanticAnalysisResult) : Option SemanticAnalysisResult :=
  if classifyDialogue seg.text.toList then do
    let utteranceText ← text? seg.text
    let speaker := candidateSpeaker seg.text.toList
    let said : Utterance := { confidence := confidence 9 1 inUnit_nine_tenths, segment := ref, generatedBy := r.generatedBy, utteranceText, speaker }
    match speaker with
    | none => return { r with utterances := r.utterances ++ [said] }
    | some name =>
      let speakerLabel ← text? name
      return { r with
        utterances := r.utterances ++ [said]
        speakerCandidates := r.speakerCandidates ++ [{
          confidence := confidence 5 1 rfl
          segment := ref
          generatedBy := r.generatedBy
          speakerLabel
          utteranceRef := ref.evidenceRef }] }
  else some r

/-- The finding of a paragraph. -/
def addFinding (a : Analysis) (seg : ParagraphRecord) (r : SemanticAnalysisResult) : SemanticAnalysisResult :=
  let isDialogue := classifyDialogue seg.text.toList
  { r with
    dialogueSpans := r.dialogueSpans ++ [{
      paragraphIndex := seg.paragraphIndex
      locator := seg.locator
      text := seg.text
      isDialogue
      quotes := (extractQuotes seg.text.toList).map String.ofList
      speakerCandidate := if isDialogue then candidateSpeaker seg.text.toList else none }]
    evidence := r.evidence ++ [a.finding seg.toParagraphSegment] }

/-- One pass of the loop of `analyze_segments`. -/
def addSegment (a : Analysis) (r : SemanticAnalysisResult) (prevChapter : Option ℤ) (seg : ParagraphRecord) :
    Option SemanticAnalysisResult := do
  let ref ← segRef seg (r.nextId fresh)
  let r ← ((r.addFinding a seg).addBoundary seg ref prevChapter).addUtterance seg ref
  r.recordCandidates fresh isWord setOrder a seg ref

/-- The loop of `analyze_segments`. -/
def addSegments (a : Analysis) : SemanticAnalysisResult → Option ℤ → List ParagraphRecord → Option SemanticAnalysisResult
  | r, _, [] => some r
  | r, prevChapter, seg :: segments => do
    let r ← r.addSegment fresh isWord setOrder a prevChapter seg
    addSegments a r (some seg.chapter) segments

end SemanticAnalysisResult

/-- `analyze_segments`. -/
def Analysis.analyzeSegments (a : Analysis) (segments : List ParagraphRecord) : Option SemanticAnalysisResult := do
  let generatedBy ← a.generatedBy
  SemanticAnalysisResult.addSegments fresh isWord setOrder a { sourceId := a.sourceId, generatedBy } none segments

/-! ## Runs are words -/

theorem takes_many {p : Pattern Char} {q : Char → Prop} (h : Pattern.Takes p q) (n : Nat) : Pattern.Takes (many p n) q := by
  induction n with
  | zero =>
    intro s rest hrest
    obtain rfl := List.mem_singleton.1 hrest
    exact ⟨[], rfl, nofun⟩
  | succ n ih =>
    intro s rest hrest
    rcases List.mem_cons.1 hrest with rfl | hrest
    · exact ⟨[], rfl, nofun⟩
    · exact Pattern.Takes.andThen h ih s rest hrest

theorem capRun_shorter {cs rest : List Char} (h : rest ∈ capRun cs) : rest.length < cs.length := by
  have htrue : ∀ f : Char → Bool, ∀ c, f c = true → True := fun _ _ _ => trivial
  obtain ⟨mid, hmid, hrest⟩ := Pattern.mem_andThen_iff.1 h
  obtain ⟨inner, hinner, hlower⟩ := Pattern.mem_andThen_iff.1 hmid
  obtain ⟨c, -, rfl⟩ := Pattern.mem_one_iff.1 hinner
  obtain ⟨ds, rfl, -⟩ := Pattern.takes_plus (htrue Char.isLower) _ _ hlower
  have hword : Pattern.Takes (Pattern.andThen (.plus isSpace) capWord) fun _ => True :=
    (Pattern.takes_plus (htrue _)).andThen ((Pattern.takes_one (htrue _)).andThen (Pattern.takes_plus (htrue _)))
  obtain ⟨es, rfl, -⟩ := takes_many hword _ _ _ hrest
  rw [List.length_cons, List.length_append, List.length_append]
  omega

variable {isWord}

theorem capRuns_nonempty (n : Nat) (before cs : List Char) : ∀ r ∈ capRuns isWord n before cs, r.2 ≠ [] := by
  induction n generalizing before cs with
  | zero => exact nofun
  | succ n ih =>
    cases cs with
    | nil => exact nofun
    | cons c cs =>
      rw [capRuns]
      split
      · exact ih _ _
      · rename_i rest hmatch
        dsimp only
        intro r hr
        rcases List.mem_cons.1 hr with rfl | hr
        · have hfound : capMatch isWord (c :: cs) = some rest := by
            split at hmatch
            · cases hmatch
            · exact hmatch
          have hmem := List.mem_of_mem_filter (List.argmin_mem hfound)
          have hshort := capRun_shorter hmem
          intro hnil
          have hlength := congrArg List.length hnil
          rw [List.length_take, List.length_nil] at hlength
          omega
        · exact ih _ _ r hr

theorem newRuns_spec (seen : List (List Char)) (runs : List (List Char × List Char)) :
    (∀ r ∈ newRuns seen runs, r ∈ runs ∧ r.2 ∉ seen) ∧ ((newRuns seen runs).map (·.2)).Nodup := by
  induction runs generalizing seen with
  | nil => exact ⟨nofun, List.nodup_nil⟩
  | cons r runs ih =>
    obtain ⟨before, run⟩ := r
    rw [newRuns]
    split
    · exact ⟨fun r hr => ⟨List.mem_cons_of_mem _ ((ih seen).1 r hr).1, ((ih seen).1 r hr).2⟩, (ih seen).2⟩
    · rename_i hrun
      constructor
      · intro r hr
        rcases List.mem_cons.1 hr with rfl | hr
        · exact ⟨List.mem_cons_self .., hrun⟩
        · obtain ⟨hmem, hnew⟩ := (ih _).1 r hr
          exact ⟨List.mem_cons_of_mem _ hmem, fun h => hnew (List.mem_cons_of_mem _ h)⟩
      · rw [List.map_cons, List.nodup_cons]
        refine ⟨fun h => ?_, (ih _).2⟩
        obtain ⟨r, hr, hsame⟩ := List.mem_map.1 h
        exact ((ih _).1 r hr).2 (hsame ▸ List.mem_cons_self ..)

theorem seenRuns_nonempty {paragraph : List Char} {r : List Char × List Char} (h : r ∈ seenRuns isWord paragraph) : r.2 ≠ [] :=
  capRuns_nonempty _ _ _ r ((newRuns_spec _ _).1 r h).1

theorem seenRuns_nodup (paragraph : List Char) : ((seenRuns isWord paragraph).map (·.2)).Nodup := (newRuns_spec _ _).2

/-! ## What is accepted -/

/-- `SegmentEvidenceRef` takes the record's coordinates. -/
def ParagraphRecord.Accepted (seg : ParagraphRecord) : Prop := seg.locator ≠ "" ∧ 1 ≤ seg.chapter ∧ 1 ≤ seg.paragraphIndex

/-- The models take what the analysis is given. -/
def Accepted (a : Analysis) (segments : List ParagraphRecord) : Prop :=
  (∃ s, a.tools.get? "analyzer" = some (.str s) ∧ s ≠ "") ∧ ∀ seg ∈ segments, seg.Accepted

theorem text?_ofList {cs : List Char} (h : cs ≠ []) : ∃ t, text? (String.ofList cs) = some t :=
  ⟨_, dif_pos fun hempty => h (by simpa using congrArg String.toList hempty)⟩

theorem segRef_accepted {seg : ParagraphRecord} (h : seg.Accepted) (id : String) : ∃ ref, segRef seg id = some ref := by
  obtain ⟨hlocator, hchapter, hparagraph⟩ := h
  unfold segRef text? ordinal?
  rw [dif_pos hlocator, dif_pos hchapter, dif_pos hparagraph]
  exact ⟨_, rfl⟩

theorem segRef_refused {seg : ParagraphRecord} (h : ¬ seg.Accepted) (id : String) : segRef seg id = none := by
  cases href : segRef seg id with
  | none => rfl
  | some ref =>
    obtain ⟨l, hl, href⟩ := Option.bind_eq_some_iff.1 href
    obtain ⟨c, hc, href⟩ := Option.bind_eq_some_iff.1 href
    obtain ⟨p, hp, -⟩ := Option.bind_eq_some_iff.1 href
    unfold text? at hl
    unfold ordinal? at hc hp
    refine absurd ⟨?_, ?_, ?_⟩ h
    · exact fun hempty => by rw [dif_neg (not_not.2 hempty)] at hl; cases hl
    · exact not_not.1 fun hlow => by rw [dif_neg hlow] at hc; cases hc
    · exact not_not.1 fun hlow => by rw [dif_neg hlow] at hp; cases hp

theorem candidateSpeaker_nonempty {paragraph : List Char} {name : String} (h : candidateSpeaker paragraph = some name) : name ≠ "" := by
  unfold candidateSpeaker at h
  split at h
  · cases h
  · obtain ⟨word, hword, rfl⟩ := Option.map_eq_some_iff.1 h
    have hmem := List.mem_of_mem_filter (List.mem_of_getLast? hword)
    have hne : word ≠ [] := by simpa using List.of_mem_filter hmem
    exact fun hempty => hne (by simpa using congrArg String.toList hempty)

namespace SemanticAnalysisResult

theorem addUtterance_accepted (seg : ParagraphRecord) (ref : SegmentEvidenceRef) (r : SemanticAnalysisResult) :
    ∃ r', r.addUtterance seg ref = some r' ∧ r'.evidence = r.evidence := by
  unfold addUtterance
  split
  · rename_i hdialogue
    have htext : seg.text ≠ "" := by
      intro hempty
      rw [hempty] at hdialogue
      exact absurd hdialogue (by decide)
    have htext' : text? seg.text = some ⟨seg.text, htext⟩ := dif_pos htext
    rw [htext']
    cases hspeaker : candidateSpeaker seg.text.toList with
    | none => exact ⟨_, rfl, rfl⟩
    | some name =>
      have hname : text? name = some ⟨name, candidateSpeaker_nonempty hspeaker⟩ := dif_pos _
      simp only [Option.bind_eq_bind, Option.bind_some, hname]
      exact ⟨_, rfl, rfl⟩
  · exact ⟨r, rfl, rfl⟩

variable {fresh : Nat → String} {setOrder : SetOrder}

theorem addCandidates_accepted (a : Analysis) (seg : ParagraphRecord) (ref : SegmentEvidenceRef) (r : SemanticAnalysisResult)
    {runs : List (List Char × List Char)} (hruns : ∀ x ∈ runs, x.2 ≠ []) :
    ∃ r', runs.foldlM (addCandidate fresh a seg ref) r = some r' ∧ r'.evidence = r.evidence ++ runs.map fun x =>
      a.ev seg.toParagraphSegment "STRUCTURAL_ANALYSIS" (confidence 3 1 inUnit_three_tenths) (entityQuality seg.text.toList x.1 x.2) := by
  induction runs generalizing r with
  | nil => exact ⟨r, rfl, (List.append_nil _).symm⟩
  | cons run runs ih =>
    obtain ⟨mention, hmention⟩ := text?_ofList (hruns run (List.mem_cons_self ..))
    obtain ⟨r₁, hadd, hrow⟩ : ∃ r₁, r.addCandidate fresh a seg ref run = some r₁ ∧ r₁.evidence = r.evidence ++
        [a.ev seg.toParagraphSegment "STRUCTURAL_ANALYSIS" (confidence 3 1 inUnit_three_tenths) (entityQuality seg.text.toList run.1 run.2)] := by
      unfold addCandidate
      rw [hmention]
      exact ⟨_, rfl, rfl⟩
    obtain ⟨r', hrest, hrows⟩ := ih r₁ fun x hx => hruns x (List.mem_cons_of_mem _ hx)
    refine ⟨r', ?_, ?_⟩
    · rw [List.foldlM_cons, hadd]
      exact hrest
    · rw [hrows, hrow, List.append_assoc]
      rfl

theorem addRelationship_accepted (a : Analysis) (seg : ParagraphRecord) (ref : SegmentEvidenceRef) (r : SemanticAnalysisResult)
    {entities : List (List Char)} (hentities : ∀ e ∈ entities, e ≠ []) :
    ∃ r', r.addRelationship fresh a seg ref entities = some r' ∧ r'.evidence = r.evidence ++ if 2 ≤ entities.length then
      [a.ev seg.toParagraphSegment "STRUCTURAL_ANALYSIS" (confidence 2 1 inUnit_two_tenths) (relationshipQuality entities)] else [] := by
  match entities, hentities with
  | [], _ | [_], _ => exact ⟨r, rfl, (List.append_nil _).symm⟩
  | subject :: object :: more, hentities =>
    obtain ⟨subjectRef, hsubject⟩ := text?_ofList (hentities subject (List.mem_cons_self ..))
    obtain ⟨objectRef, hobject⟩ := text?_ofList (hentities object (List.mem_cons_of_mem _ (List.mem_cons_self ..)))
    rw [addRelationship, hsubject, hobject, if_pos (by simp only [List.length_cons]; omega)]
    exact ⟨_, rfl, rfl⟩

/-- A record that is accepted leaves its evidence. -/
theorem addSegment_accepted (a : Analysis) (r : SemanticAnalysisResult) (prevChapter : Option ℤ) {seg : ParagraphRecord}
    (hseg : seg.Accepted) : ∃ r', r.addSegment fresh isWord setOrder a prevChapter seg = some r' ∧
      r'.evidence = r.evidence ++ a.segmentEvidence isWord setOrder seg.toParagraphSegment := by
  obtain ⟨ref, href⟩ := segRef_accepted hseg (r.nextId fresh)
  have hboundary : ((r.addFinding a seg).addBoundary seg ref prevChapter).evidence = r.evidence ++ [a.finding seg.toParagraphSegment] := by
    unfold addBoundary
    split <;> rfl
  obtain ⟨r₁, hutterance, hrows₁⟩ := addUtterance_accepted seg ref ((r.addFinding a seg).addBoundary seg ref prevChapter)
  obtain ⟨r₂, hcandidates, hrows₂⟩ := @addCandidates_accepted fresh a seg ref r₁
    ((seenRuns isWord seg.text.toList).filter fun run => isCandidate isWord seg.text.toList run.2)
    fun x hx => seenRuns_nonempty (List.mem_of_mem_filter hx)
  obtain ⟨r₃, hrelationship, hrows₃⟩ := @addRelationship_accepted fresh a seg ref r₂
    (setOrder.order ((seenRuns isWord seg.text.toList).map (·.2))) (by
      intro e he
      obtain ⟨x, hx, rfl⟩ := List.mem_map.1 ((setOrder.perm _).mem_iff.1 he)
      exact seenRuns_nonempty hx)
  refine ⟨r₃, ?_, ?_⟩
  · unfold addSegment
    rw [href, Option.bind_eq_bind, Option.bind_some, hutterance, Option.bind_eq_bind, Option.bind_some, recordCandidates,
      hcandidates]
    exact hrelationship
  · rw [hrows₃, hrows₂, hrows₁, hboundary, Analysis.segmentEvidence, TextStructural.recordCandidates,
      List.map_append, List.map_map, List.append_assoc, List.append_assoc, List.singleton_append]
    split <;> rfl

theorem addSegments_accepted (a : Analysis) (r : SemanticAnalysisResult) (prevChapter : Option ℤ) {segments : List ParagraphRecord}
    (hsegments : ∀ seg ∈ segments, seg.Accepted) : ∃ r', addSegments fresh isWord setOrder a r prevChapter segments = some r' ∧
      r'.evidence = r.evidence ++ analyzeSegments isWord setOrder a (segments.map (·.toParagraphSegment)) := by
  induction segments generalizing r prevChapter with
  | nil => exact ⟨r, rfl, (List.append_nil _).symm⟩
  | cons seg segments ih =>
    obtain ⟨r₁, hadd, hrow⟩ := @addSegment_accepted isWord fresh setOrder a r prevChapter seg (hsegments seg (List.mem_cons_self ..))
    obtain ⟨r', hrest, hrows⟩ := ih r₁ (some seg.chapter) fun s hs => hsegments s (List.mem_cons_of_mem _ hs)
    refine ⟨r', ?_, ?_⟩
    · rw [addSegments, hadd]
      exact hrest
    · rw [hrows, hrow, List.append_assoc]
      rfl

theorem addSegments_refused (a : Analysis) (r : SemanticAnalysisResult) (prevChapter : Option ℤ) {segments : List ParagraphRecord}
    (hsegments : ¬ ∀ seg ∈ segments, seg.Accepted) : addSegments fresh isWord setOrder a r prevChapter segments = none := by
  induction segments generalizing r prevChapter with
  | nil => exact absurd (fun _ h => nomatch h) hsegments
  | cons seg segments ih =>
    rw [addSegments]
    by_cases hseg : seg.Accepted
    · obtain ⟨r₁, hadd, -⟩ := @addSegment_accepted isWord fresh setOrder a r prevChapter seg hseg
      rw [hadd]
      exact ih r₁ _ fun hall => hsegments (List.forall_mem_cons.2 ⟨hseg, hall⟩)
    · rw [addSegment, segRef_refused hseg]
      rfl

/-- Orders that agree on the runs of every paragraph give one result. -/
theorem addSegments_congr (a : Analysis) (r : SemanticAnalysisResult) (prevChapter : Option ℤ) {segments : List ParagraphRecord}
    {o o' : SetOrder} (h : ∀ seg ∈ segments, o.order ((seenRuns isWord seg.text.toList).map (·.2)) =
      o'.order ((seenRuns isWord seg.text.toList).map (·.2))) :
    addSegments fresh isWord o a r prevChapter segments = addSegments fresh isWord o' a r prevChapter segments := by
  induction segments generalizing r prevChapter with
  | nil => rfl
  | cons seg segments ih =>
    have hseg : r.addSegment fresh isWord o a prevChapter seg = r.addSegment fresh isWord o' a prevChapter seg := by
      unfold addSegment recordCandidates
      dsimp only
      rw [h seg (List.mem_cons_self ..)]
    rw [addSegments, addSegments, hseg]
    exact congrArg _ (funext fun r₁ => ih r₁ _ fun s hs => h s (List.mem_cons_of_mem _ hs))

end SemanticAnalysisResult

variable {fresh : Nat → String}

/-- The evidence of an accepted analysis is that of its paragraphs. -/
theorem analysis_evidence {a : Analysis} {segments : List ParagraphRecord} (h : Accepted a segments) (setOrder : SetOrder) :
    ∃ r, a.analyzeSegments fresh isWord setOrder segments = some r ∧
      r.evidence = analyzeSegments isWord setOrder a (segments.map (·.toParagraphSegment)) := by
  obtain ⟨⟨s, hanalyzer, hs⟩, hsegments⟩ := h
  have hgenerated : ∃ g, a.generatedBy = some g := by
    unfold Analysis.generatedBy text?
    rw [hanalyzer]
    dsimp only
    rw [dif_pos hs]
    exact ⟨_, rfl⟩
  obtain ⟨g, hg⟩ := hgenerated
  obtain ⟨r, hr, hrows⟩ := @SemanticAnalysisResult.addSegments_accepted isWord fresh setOrder a
    { sourceId := a.sourceId, generatedBy := g } none segments hsegments
  refine ⟨r, ?_, hrows⟩
  rw [Analysis.analyzeSegments, hg]
  exact hr

theorem analysis_refused {a : Analysis} {segments : List ParagraphRecord} (h : ¬ Accepted a segments) (setOrder : SetOrder) :
    a.analyzeSegments fresh isWord setOrder segments = none := by
  unfold Analysis.analyzeSegments
  cases hg : a.generatedBy with
  | none => rfl
  | some g =>
    apply SemanticAnalysisResult.addSegments_refused
    intro hsegments
    refine h ⟨?_, hsegments⟩
    unfold Analysis.generatedBy at hg
    split at hg
    · rename_i s hs
      refine ⟨s, hs, fun hempty => ?_⟩
      rw [hempty] at hg
      cases hg
    · cases hg

/-! ## Two orders -/

/-- The order in which the runs were found, and the opposite one. -/
def SetOrder.found : SetOrder := ⟨id, perm_id⟩

def SetOrder.turned : SetOrder := ⟨List.reverse, List.reverse_perm⟩

/-- A set of one value has one order. -/
theorem SetOrder.short (o : SetOrder) {xs : List (List Char)} (h : xs.length < 2) : o.order xs = xs := by
  match xs, h with
  | [], _ => exact (o.perm []).eq_nil
  | [x], _ => exact List.perm_singleton.1 (o.perm [x])

theorem reverse_ne {α : Type} {xs : List α} (hxs : xs.Nodup) (hlong : 2 ≤ xs.length) : xs.reverse ≠ xs := by
  match xs, hxs, hlong with
  | x :: y :: zs, hxs, _ =>
    intro h
    have hlast : (y :: zs).getLast (List.cons_ne_nil _ _) = x := by
      have hhead := congrArg List.head? h
      rw [List.head?_reverse, List.getLast?_eq_some_getLast (List.cons_ne_nil _ _), List.getLast_cons_cons, List.head?_cons] at hhead
      exact Option.some.inj hhead
    exact (List.nodup_cons.1 hxs).1 (hlast ▸ List.getLast_mem _)

/-- Pieces of the same lengths are told apart in what they make together. -/
theorem flatMap_pieces {α β : Type} {f g : α → List β} {l : List α} (hlength : ∀ x ∈ l, (f x).length = (g x).length)
    (h : l.flatMap f = l.flatMap g) : ∀ x ∈ l, f x = g x := by
  induction l with
  | nil => exact nofun
  | cons x l ih =>
    rw [List.flatMap_cons, List.flatMap_cons] at h
    obtain ⟨hhead, htail⟩ := List.append_inj h (hlength x (List.mem_cons_self ..))
    exact List.forall_mem_cons.2 ⟨hhead, ih (fun y hy => hlength y (List.mem_cons_of_mem _ hy)) htail⟩

theorem text_injective : Function.Injective text := by
  intro cs ds h
  unfold text at h
  rw [Json.str.injEq] at h
  exact String.ofList_injective h

/-- The rows of a paragraph tell in which order its different runs are listed. -/
theorem recordCandidates_order {paragraph : List Char} {o o' : SetOrder} (hlong : 2 ≤ (seenRuns isWord paragraph).length)
    (h : (recordCandidates isWord o paragraph).map (·.2) = (recordCandidates isWord o' paragraph).map (·.2)) :
    o.order ((seenRuns isWord paragraph).map (·.2)) = o'.order ((seenRuns isWord paragraph).map (·.2)) := by
  have hmany : ∀ o : SetOrder, 2 ≤ (o.order ((seenRuns isWord paragraph).map (·.2))).length := by
    intro o
    rw [(o.perm _).length_eq, List.length_map]
    exact hlong
  unfold recordCandidates at h
  dsimp only at h
  rw [if_pos (hmany o), if_pos (hmany o'), List.map_append, List.map_append] at h
  have hquality := List.singleton_inj.1 (List.append_cancel_left h)
  simp only [relationshipQuality, List.cons.injEq, Prod.mk.injEq, true_and, and_true, Json.arr.injEq] at hquality
  exact text_injective.list_map hquality

/-- **A text is analysed to the same result under every order of its sets if and only if the models refuse it, or no paragraph of it
has two different runs.** -/
theorem analysis_determined_iff (fresh : Nat → String) (isWord : Char → Bool) (a : Analysis) (segments : List ParagraphRecord) :
    (∀ o o' : SetOrder, a.analyzeSegments fresh isWord o segments = a.analyzeSegments fresh isWord o' segments) ↔
      ¬ Accepted a segments ∨ ∀ seg ∈ segments, (seenRuns isWord seg.text.toList).length < 2 := by
  constructor
  · intro hsame
    by_cases haccepted : Accepted a segments
    · right
      intro seg hseg
      by_contra hmany
      have hlong : 2 ≤ (seenRuns isWord seg.text.toList).length := by omega
      obtain ⟨r, hr, hrows⟩ := @analysis_evidence isWord fresh a segments haccepted .found
      obtain ⟨r', hr', hrows'⟩ := @analysis_evidence isWord fresh a segments haccepted .turned
      rw [hsame .found .turned, hr'] at hr
      rw [Option.some.inj hr, hrows] at hrows'
      have hpieces := flatMap_pieces (fun s _ => ?_) hrows'.symm seg.toParagraphSegment (List.mem_map_of_mem hseg)
      · have hrows := congrArg (List.map Evidence.quality) (List.cons.inj hpieces).2
        rw [List.map_map, List.map_map] at hrows
        refine reverse_ne (seenRuns_nodup seg.text.toList) (by rwa [List.length_map]) ?_
        exact recordCandidates_order hlong hrows
      · unfold Analysis.segmentEvidence recordCandidates
        simp only [List.length_cons, List.length_map, List.length_append, (SetOrder.perm _ _).length_eq]
        split <;> rfl
    · exact .inl haccepted
  · rintro (hrefused | hfew) o o'
    · rw [analysis_refused hrefused, analysis_refused hrefused]
    · unfold Analysis.analyzeSegments
      refine congrArg _ (funext fun g => SemanticAnalysisResult.addSegments_congr a _ _ fun seg hseg => ?_)
      have hshort := hfew seg hseg
      rw [← List.length_map (·.2)] at hshort
      rw [o.short hshort, o'.short hshort]

end

/-- A paragraph of two names. -/
def meeting : ParagraphRecord := { text := "Alice met Bob.", locator := "chapter/1/paragraph/1", paragraphIndex := 1, chapter := 1 }

/-- Under one order Alice co-occurs with Bob, under another one Bob with Alice. -/
theorem subject_undetermined : ¬ ∀ (fresh : Nat → String) (isWord : Char → Bool) (a : Analysis) (segments : List ParagraphRecord)
    (o o' : SetOrder), a.analyzeSegments fresh isWord o segments = a.analyzeSegments fresh isWord o' segments := by
  intro hall
  have hsubjects := congrArg (fun r : Option SemanticAnalysisResult => r.map fun r => r.relationships.map (·.subjectRef))
    (hall toString Char.isAlphanum { sourceId := "s" } [meeting] .found .turned)
  exact absurd hsubjects (by decide +kernel)

end Umd.TextStructural
